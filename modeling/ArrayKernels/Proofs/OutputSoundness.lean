import ArrayKernels.Proofs.InputSoundness

/-! The rules on the outputs of map kernels keep values. A kernel with fewer outputs has the values of the outputs that are left,
and an output that is the same in every thread is made of copies of one value. -/
namespace ArrayKernels

variable {how : Leniency} {S : Scope} {n : Nat} {σ τ : Store}

/-! Some of the elements of a list -/

section
variable {α β : Type}

theorem pick_cons (flag : Bool) (flags : List Bool) (x : α) (xs : List α) :
    pick (flag :: flags) (x :: xs) = if flag then x :: pick flags xs else pick flags xs := by
  cases flag <;> simp [pick]

theorem map_pick (f : α → β) (flags : List Bool) (xs : List α) : (pick flags xs).map f = pick flags (xs.map f) := by
  induction flags generalizing xs with
  | nil => rfl
  | cons flag flags ih =>
    cases xs with
    | nil => simp [pick]
    | cons x xs =>
      rw [List.map_cons, pick_cons, pick_cons, ← ih]
      cases flag <;> rfl

theorem pick_zip (flags : List Bool) {xs : List α} {ys : List β} (same : xs.length = ys.length) :
    (pick flags xs).zip (pick flags ys) = pick flags (xs.zip ys) := by
  induction flags generalizing xs ys with
  | nil => rfl
  | cons flag flags ih =>
    cases xs with
    | nil => simp [pick]
    | cons x xs =>
      cases ys with
      | nil => cases same
      | cons y ys =>
        rw [List.zip_cons_cons, pick_cons, pick_cons, pick_cons, ← ih (Nat.succ.inj same)]
        cases flag <;> rfl

theorem pick_mapM {f : α → Eval β} {xs : List α} {ys : List β} (flags : List Bool) (h : xs.mapM f = .ok ys) :
    (pick flags xs).mapM f = .ok (pick flags ys) := by
  rw [mapM_eq_ok] at h ⊢
  induction h generalizing flags with
  | nil => simp [pick]
  | cons head _ ih =>
    cases flags with
    | nil => exact .nil
    | cons flag flags =>
      rw [pick_cons, pick_cons]
      cases flag with
      | true => exact .cons head (ih flags)
      | false => exact ih flags

theorem pick_all {flags : List Bool} {xs : List α} (all : flags.all id = true) (matched : flags.length = xs.length) : pick flags xs = xs := by
  induction flags generalizing xs with
  | nil => exact (List.eq_nil_of_length_eq_zero matched.symm).symm
  | cons flag flags ih =>
    cases xs with
    | nil => cases matched
    | cons x xs =>
      rw [List.all_cons, id_eq, Bool.and_eq_true] at all
      rw [pick_cons, if_pos all.1, ih all.2 (Nat.succ.inj matched)]

/-- Each element is picked by the flags or by their opposites. -/
theorem mem_pick_or {flags : List Bool} {xs : List α} (matched : flags.length = xs.length) {x : α} (mem : x ∈ xs) :
    x ∈ pick flags xs ∨ x ∈ pick (flags.map (!·)) xs :=
  List.mem_append.mp ((pick_perm matched).mem_iff.mpr mem)

end

/-! Columns -/

/-- The columns of a table of `n` columns. -/
def columns (n : Nat) (rows : List (List Value)) : List (List Value) := (List.range n).map fun j => column j rows

theorem column_succ (j : Nat) (rows : List (List Value)) : column (j + 1) rows = column j (rows.map List.tail) := by
  simp [column, List.filterMap_map]

theorem columns_succ (n : Nat) (rows : List (List Value)) : columns (n + 1) rows = column 0 rows :: columns n (rows.map List.tail) := by
  simp [columns, List.range_succ_eq_map, column_succ]

theorem columns_pick {flags : List Bool} {rows : List (List Value)} (full : ∀ row ∈ rows, row.length = flags.length) :
    columns (flags.count true) (rows.map (pick flags)) = pick flags (columns flags.length rows) := by
  induction flags generalizing rows with
  | nil => rfl
  | cons flag flags ih =>
    have later : ∀ row ∈ rows.map List.tail, row.length = flags.length := by
      intro row mem
      obtain ⟨row, among, rfl⟩ := List.mem_map.mp mem
      rw [List.length_tail, full row among]
      rfl
    have uncons (row : List Value) (among : row ∈ rows) : ∃ x xs, row = x :: xs := List.exists_cons_of_length_eq_add_one (full row among)
    rw [List.length_cons, columns_succ, pick_cons, ← ih later]
    cases flag with
    | true =>
      have first : column 0 (rows.map (pick (true :: flags))) = column 0 rows := by
        rw [column, column, List.filterMap_map]
        refine List.filterMap_congr fun row among => ?_
        obtain ⟨x, xs, rfl⟩ := uncons row among
        rw [Function.comp, pick_cons, if_pos rfl]
        rfl
      rw [List.count_cons_self, columns_succ, if_pos rfl, first, List.map_map, List.map_map]
      refine congrArg (fun rest => column 0 rows :: columns _ rest) (List.map_congr_left fun row among => ?_)
      obtain ⟨x, xs, rfl⟩ := uncons row among
      rw [Function.comp, Function.comp, pick_cons, if_pos rfl]
      rfl
    | false =>
      rw [List.count_cons_of_ne (by decide), if_neg (by decide), List.map_map]
      refine congrArg (columns _) (List.map_congr_left fun row among => ?_)
      obtain ⟨x, xs, rfl⟩ := uncons row among
      rw [Function.comp, pick_cons, if_neg (by decide)]
      rfl

/-- Working on a list with the number of each element is working on it with its columns. -/
theorem mapM_columns {α β : Type} (f : α → List Value → Eval β) (xs : List α) (rows : List (List Value)) :
    (xs.zipIdx.mapM fun xj => f xj.1 (column xj.2 rows)) = (xs.zip (columns xs.length rows)).mapM fun xc => f xc.1 xc.2 := by
  rw [columns, List.zip_map_right, List.mapM_map, List.zipIdx_eq_zip_range', List.range_eq_range']
  rfl

/-! What map kernels give -/

namespace MapKernel

variable {k : MapKernel}

/-- One output is put together from its column. -/
theorem assemble_of_columns {env : Env} {space : List Nat} {rows : List (List Value)} {outs : List Value} {j : Nat} {ret : Ty × List Nat}
    {out : Value} (assembled : ((k.returns.zip (columns k.returns.length rows)).mapM fun rc => assemble env space rc.1 rc.2) = .ok outs)
    (returned : k.returns[j]? = some ret) (made : outs[j]? = some out) : assemble env space ret (column j rows) = .ok out := by
  have below : j < k.returns.length := (List.getElem?_eq_some_iff.mp returned).1
  have here : (columns k.returns.length rows)[j]? = some (column j rows) := by
    rw [columns, List.getElem?_map, List.getElem?_range below]
    rfl
  have paired : (k.returns.zip (columns k.returns.length rows))[j]? = some (ret, column j rows) :=
    List.getElem?_zip_eq_some.mpr ⟨returned, here⟩
  exact List.forall₂_zip (mapM_eq_ok.mp assembled) (List.mem_of_getElem? (List.getElem?_zip_eq_some.mpr ⟨paired, made⟩))

/-- The results of the threads of a lenient run. -/
structure Threads (how : Leniency) (σ : Store) (k : MapKernel) (count : Nat) (dims : List Nat) (rows : List (List Value)) : Prop where
  width : σ.env.size k.width = .ok count
  extents : σ.env.sizes k.extents = .ok dims
  dimensions : dims ≠ []
  each : List.Forall₂ (fun t row => ∃ e, k.threadEnv dims σ.env t = .ok e ∧ k.body.run (.lenient how) (σ.inside k.threadNames e) = .ok row ∧
    k.declares how.typed row = true ∧ row.length = k.returns.length) (List.range count) rows

theorem runThread_eq_ok {run : Env → Eval (List Value)} {dims : List Nat} {env : Env} {t : Nat} {row : List Value} :
    k.runThread (fun e => do
      let values ← run e
      if k.declares how.typed values then .ok values else .error .storage) dims env t = .ok row ↔
      ∃ e, k.threadEnv dims env t = .ok e ∧ run e = .ok row ∧ k.declares how.typed row = true ∧ row.length = k.returns.length := by
  simp only [runThread, bind_eq_ok]
  constructor
  · rintro ⟨e, entered, values, ⟨values, ran, checked⟩, full⟩
    split at checked
    · cases checked
      split at full
      · cases full
        exact ⟨e, entered, ran, ‹_›, ‹_›⟩
      · cases full
    · cases checked
  · rintro ⟨e, entered, ran, declared, full⟩
    exact ⟨e, entered, row, ⟨row, ran, if_pos declared⟩, if_pos full⟩

theorem run_eq_ok {vs : List Value} : (Kernel.map k).run (.lenient how) σ = .ok vs ↔
    ∃ count dims rows outs, k.Threads how σ count dims rows ∧
      ((k.returns.zip (columns k.returns.length rows)).mapM fun rc => assemble σ.env dims rc.1 rc.2) = .ok outs ∧
      vs = outs.map (Value.settled how.typed) := by
  have flat {dims : List Nat} (measured : σ.env.sizes k.extents = .ok dims) : dims = [] ↔ k.space = [] := by
    have length := (mapM_eq_ok.mp measured).length_eq
    rw [extents, List.length_map] at length
    rw [← List.length_eq_zero_iff, ← length, List.length_eq_zero_iff]
  rw [Kernel.run_map, Mode.map]
  split
  · rename_i none
    constructor
    · intro h
      cases h
    · rintro ⟨count, dims, rows, outs, threads, _⟩
      exact absurd ((flat threads.extents).mpr none) threads.dimensions
  · rename_i some
    simp only [run, bind_eq_ok, collect_eq_mapM, @mapM_eq_ok Nat, runThread_eq_ok, mapM_columns]
    constructor
    · rintro ⟨outs, ⟨count, sized, dims, measured, rows, each, assembled⟩, made⟩
      have dimensions : dims ≠ [] := fun none => some ((flat measured).mp none)
      rw [if_neg dimensions] at assembled
      cases made
      exact ⟨count, dims, rows, outs, ⟨sized, measured, dimensions, each⟩, assembled, rfl⟩
    · rintro ⟨count, dims, rows, outs, threads, assembled, rfl⟩
      refine ⟨outs, ⟨count, threads.width, dims, threads.extents, rows, threads.each, ?_⟩, rfl⟩
      rw [if_neg threads.dimensions]
      exact assembled

/-- What is known of the results of one thread. -/
theorem Threads.row {count : Nat} {dims : List Nat} {rows : List (List Value)} (threads : k.Threads how σ count dims rows) {row : List Value}
    (mem : row ∈ rows) : ∃ e, (∀ v, v ∉ k.threadNames → e.get? v = σ.env.get? v) ∧
      k.body.run (.lenient how) (σ.inside k.threadNames e) = .ok row ∧ k.declares how.typed row = true ∧
      row.length = k.returns.length := by
  obtain ⟨i, below, rfl⟩ := List.mem_iff_getElem.mp mem
  obtain ⟨e, entered, rest⟩ := threads.each.get (threads.each.length_eq ▸ below) below
  exact ⟨e, fun v other => threadEnv_frame entered other, rest⟩

theorem Threads.rows_length {count : Nat} {dims : List Nat} {rows : List (List Value)} (threads : k.Threads how σ count dims rows) :
    ∀ row ∈ rows, row.length = k.returns.length := by
  intro row mem
  obtain ⟨_, _, _, _, full⟩ := threads.row mem
  exact full

theorem declares_pick {flags : List Bool} {values : List Value} {typed : Bool} (full : values.length = k.returns.length)
    (declared : k.declares typed values = true) (result : List Operand) :
    ({ k with returns := pick flags k.returns, body := ⟨k.body.stms, result⟩ } : MapKernel).declares typed (pick flags values) = true := by
  rw [declares, List.all_eq_true] at declared ⊢
  intro vr mem
  rw [pick_zip flags full] at mem
  exact declared vr ((pick_sublist _ _).subset mem)

/-- The kernel with the flagged outputs has their values. -/
theorem run_pick {flags : List Bool} {vs : List Value} (matched : flags.length = k.returns.length)
    (runs : (Kernel.map k).run (.lenient how) σ = .ok vs) :
    (Kernel.map { k with returns := pick flags k.returns, body := ⟨k.body.stms, pick flags k.body.result⟩ }).run (.lenient how) σ =
      .ok (pick flags vs) := by
  obtain ⟨count, dims, rows, outs, threads, assembled, rfl⟩ := run_eq_ok.mp runs
  have full := threads.rows_length
  refine run_eq_ok.mpr ⟨count, dims, rows.map (pick flags), pick flags outs, ⟨threads.width, threads.extents, threads.dimensions, ?_⟩, ?_, ?_⟩
  · rw [List.forall₂_map_right_iff]
    refine threads.each.imp fun t row => ?_
    rintro ⟨e, entered, ran, declared, full⟩
    refine ⟨e, entered, ?_, declares_pick full declared _, ?_⟩
    · rw [Body.run_eq] at ran ⊢
      obtain ⟨τ, first, result⟩ := bind_eq_ok.mp ran
      exact bind_eq_ok.mpr ⟨τ, first, pick_mapM flags result⟩
    · rw [length_pick (matched.trans full.symm), length_pick matched]
  · have picked := pick_mapM flags assembled
    rw [← pick_zip] at picked
    · rw [length_pick matched, columns_pick fun row mem => (full row mem).trans matched.symm, matched]
      exact picked
    · simp [columns]
  · exact (map_pick _ _ _).symm

end MapKernel

/-! Kernel statements -/

theorem Env.get?_bindAll_of_nodup {bs : List (Name × Value)} {v : Name} {x : Value} (env : Env) (distinct : (bs.map Prod.fst).Nodup)
    (mem : (v, x) ∈ bs) : (env.bindAll bs).get? v = some x := by
  induction bs generalizing env with
  | nil => cases mem
  | cons b bs ih =>
    obtain ⟨w, y⟩ := b
    rw [List.map_cons, List.nodup_cons] at distinct
    rw [bindAll_cons]
    rcases List.mem_cons.mp mem with same | later
    · cases same
      rw [get?_bindAll_of_not_mem _ distinct.1, get?_bind, if_pos rfl]
    · exact ih _ distinct.2 later

section
variable {stm : Stm} {k : Kernel} {vs : List Value}

/-- The names of a kernel statement after it had values. -/
theorem Stm.run_of_launched (launched : stm.exp = .launch k) (context : stm.pat.context = []) (distinct : stm.pat.names.Nodup)
    (runs : k.run (.lenient how) σ = .ok vs) (full : vs.length = stm.pat.values.length) :
    ∃ τ, stm.run (.lenient how) σ = .ok τ ∧ ∀ p ∈ stm.pat.values.zip vs, τ.cell p.1.name = ⟨some p.2, none, none⟩ := by
  have names := Pattern.names_eq context
  have bound : ((stm.exp.run (.lenient how) σ) >>= fun values => (σ.env.hide stm.pat.names).bindValues stm.pat values) =
      .ok ((σ.env.hide stm.pat.names).bindAll (stm.pat.names.zip vs)) := by
    rw [launched, Exp.run, runs, ok_bind, Env.bindValues, if_pos]
    rw [Pattern.binders, context, List.nil_append, full]
  refine ⟨_, Mode.settle_of_ok bound, fun p mem => ?_⟩
  have inside : (p.1.name, p.2) ∈ stm.pat.names.zip vs := by
    rw [names, List.zip_map_left]
    exact List.mem_map_of_mem mem
  rw [Mode.cell_settle (List.of_mem_zip inside).1, launched, Env.get?_bindAll_of_nodup _ _ inside]
  · rfl
  · rw [List.map_fst_zip (by simp [names, full])]
    exact distinct

/-- A kernel statement has values for its names, or is passed over. -/
theorem Stm.launched_cases (launched : stm.exp = .launch k) (context : stm.pat.context = []) (distinct : stm.pat.names.Nodup)
    (ran : stm.run (.lenient how) σ = .ok τ) :
    (∃ vs, k.run (.lenient how) σ = .ok vs ∧ vs.length = stm.pat.values.length ∧
      ∀ p ∈ stm.pat.values.zip vs, τ.cell p.1.name = ⟨some p.2, none, none⟩) ∨
    how.lax = true ∧ ∀ v ∈ stm.pat.names, τ.cell v = ⟨none, none, some false⟩ := by
  cases settled : ((stm.exp.run (.lenient how) σ) >>= fun values => (σ.env.hide stm.pat.names).bindValues stm.pat values) with
  | error err =>
    have ran : _ = Except.ok τ := (Mode.settle_of_error settled).symm.trans ran
    rw [launched, show (Exp.launch k).isSpeculable = false from rfl, Bool.or_false] at ran
    split at ran
    · rename_i lax
      cases ran
      exact .inr ⟨lax, fun v mem => Mode.cell_fail mem _⟩
    · cases ran
  | ok env =>
    obtain ⟨vs, runs, bound⟩ := bind_eq_ok.mp settled
    rw [launched, Exp.run] at runs
    have full : vs.length = stm.pat.values.length := by
      rw [Env.bindValues, Pattern.binders, context, List.nil_append] at bound
      split at bound
      · rename_i full
        exact full
      · cases bound
    obtain ⟨_, again, cells⟩ := Stm.run_of_launched launched context distinct runs full
    cases again.symm.trans ran
    exact .inl ⟨vs, runs, full, cells⟩

end

/-! Fewer outputs -/

section
variable {stm : Stm} {k : MapKernel} {flags : List Bool}

theorem Pattern.names_pick {pat : Pattern} (context : pat.context = []) (flags : List Bool) :
    ({ pat with values := pick flags pat.values } : Pattern).names = pick flags pat.names := by
  rw [names_eq context, ← map_pick]
  exact names_eq context

/-- The kernel statement with the flagged outputs gives their names the values that they had. -/
theorem keepOutputs_run {vs : List Value} (flagged : Flagged flags stm k) (distinct : stm.pat.names.Nodup)
    (runs : (Kernel.map k).run (.lenient how) σ = .ok vs) (full : vs.length = stm.pat.values.length) :
    ∃ τ, (keepOutputs flags stm k).run (.lenient how) σ = .ok τ ∧
      ∀ p ∈ pick flags (stm.pat.values.zip vs), τ.cell p.1.name = ⟨some p.2, none, none⟩ := by
  rw [← pick_zip flags full.symm]
  apply @Stm.run_of_launched how σ (keepOutputs flags stm k) _ _ rfl flagged.context
  · change ({ stm.pat with values := pick flags stm.pat.values } : Pattern).names.Nodup
    rw [Pattern.names_pick flagged.context]
    exact distinct.sublist (pick_sublist _ _)
  · exact MapKernel.run_pick flagged.returns runs
  · change _ = (pick flags stm.pat.values).length
    rw [length_pick flagged.values, length_pick (flagged.values.trans full.symm)]

theorem Pattern.exists_value {pat : Pattern} {vs : List Value} (context : pat.context = []) (full : vs.length = pat.values.length)
    {v : Name} (own : v ∈ pat.names) : ∃ p ∈ pat.values.zip vs, p.1.name = v := by
  rw [names_eq context, ← List.map_fst_zip (Nat.le_of_eq full.symm), List.map_map] at own
  exact List.mem_map.mp own

/-- Nothing is known about the names of a statement that was passed over. -/
theorem Replaces.of_failed {new : List Stm} {used : Name → Prop} (lax : how.lax = true)
    (failed : ∀ v ∈ stm.pat.names, τ.cell v = ⟨none, none, some false⟩) :
    ∃ τ', runStms (.lenient how) σ new = .ok τ' ∧ ∀ v ∈ stm.pat.names, used v → (τ.cell v).Below (τ'.cell v) := by
  obtain ⟨τ', ran⟩ := @runStms_movable how new (fun s _ => by rw [Stm.Movable, lax, Bool.true_or]) σ
  refine ⟨τ', ran, fun v own _ => ?_⟩
  rw [failed v own]
  exact .failed

end

/-- The outputs that are used keep their values. -/
theorem dropDeadOutputs_sound : BottomUpRule.Sound how dropDeadOutputs := by
  intro table usage stm names new names' S applied fits inside σ τ ran
  obtain ⟨k, launched, flagged, _, rfl, kept⟩ := dropDeadOutputs_eq_some applied
  have distinct : stm.pat.names.Nodup := fits.left.distinct
  have sole := Pattern.names_eq flagged.context
  rcases Stm.launched_cases launched flagged.context distinct ran with ⟨vs, runs, full, cells⟩ | ⟨lax, failed⟩
  · rcases kept with ⟨rfl, unused⟩ | rfl
    · refine ⟨σ, rfl, fun v own used => absurd ?_ unused⟩
      rw [sole] at own
      obtain ⟨b, among, rfl⟩ := List.mem_map.mp own
      exact List.mem_map.mpr ⟨b, among, used⟩
    · obtain ⟨τ', again, cells'⟩ := keepOutputs_run flagged distinct runs full
      refine ⟨τ', ?_, fun v own used => ?_⟩
      · rw [runStms_cons, again]
        rfl
      · obtain ⟨p, among, rfl⟩ := Pattern.exists_value flagged.context full own
        have flags : usedFlags usage stm = (stm.pat.values.zip vs).map fun p => usage.isUsed p.1.name := by
          have values : (stm.pat.values.zip vs).map Prod.fst = stm.pat.values := List.map_fst_zip (Nat.le_of_eq full.symm)
          rw [usedFlags]
          conv_lhs => rw [← values, List.map_map]
          rfl
        have picked : p ∈ pick (usedFlags usage stm) (stm.pat.values.zip vs) := by
          rw [flags, pick_map]
          exact List.mem_filter.mpr ⟨among, used⟩
        rw [cells p among, cells' p picked]
        exact .refl _
  · exact Replaces.of_failed lax failed

/-! Outputs that are the same in every thread -/

theorem pairwise_of_nondecreasing {perm : List Nat} (h : nondecreasing perm = true) : perm.Pairwise (· ≤ ·) := by
  apply List.isChain_iff_pairwise.mp
  induction perm using nondecreasing.induct with
  | case1 a b rest ih =>
    rw [nondecreasing, Bool.and_eq_true, decide_eq_true_eq] at h
    exact .cons_cons h.1 (ih h.2)
  | case2 perm short =>
    cases perm with
    | nil => exact .nil
    | cons a rest =>
      cases rest with
      | nil => exact .singleton a
      | cons b rest => exact absurd rfl (short a b rest)

/-- A permutation that is in order moves nothing. -/
theorem inPlace_of_nondecreasing {perm : List Nat} {n : Nat} (ordered : nondecreasing perm = true)
    (permutes : perm.isPerm (List.range n) = true) : inPlace perm = true := by
  have perms := List.isPerm_iff.mp permutes
  have same : perm = List.range n :=
    perms.eq_of_pairwise (fun a b _ _ => Nat.le_antisymm) (pairwise_of_nondecreasing ordered) List.pairwise_le_range
  rw [inPlace, same, List.length_range]
  exact decide_eq_true rfl

namespace ArrayValue

variable {e : ScalarType} {shape : List Nat} {count : Nat} {x : Value} {flat : ArrayValue}

/-- Rows that are all the same are copies of one. -/
theorem replicate_of_ofRows (h : ofRows e shape (List.replicate count x) = .ok flat) (some : 0 < count) :
    ∃ a, replicate [count] x = .ok a ∧ a.data = flat.data ∧ x.elem = .some a.elem ∧ (x.isVoid = true → a.data = #[]) := by
  obtain ⟨data, cut, made⟩ := bind_eq_ok.mp h
  cases made
  obtain ⟨cells, first⟩ : ∃ cells, rowCells shape x = .ok cells := by
    obtain ⟨n, rfl⟩ : ∃ n, count = n + 1 := ⟨count - 1, by omega⟩
    obtain ⟨cells, _, first, _⟩ := List.forall₂_cons_left_iff.mp (List.replicate_succ ▸ mapM_eq_ok.mp cut)
    exact ⟨cells, first⟩
  have all : (List.replicate count x).mapM (rowCells shape) = .ok (List.replicate count cells) := by
    rw [mapM_eq_ok]
    clear h cut some
    induction count with
    | zero => exact .nil
    | succ n ih => exact .cons first ih
  cases all.symm.trans cut
  have volume : volume [count] = count := Nat.mul_one count
  rw [flatten_replicate]
  cases x with
  | scalar c =>
    rw [rowCells] at first
    split at first
    · cases first
      refine ⟨⟨c.type, [count], Array.replicate count c⟩, ?_, (copies_singleton count c).symm, rfl, fun void => ?_⟩
      · rw [replicate, volume]
      · cases void
    · cases first
  | array b =>
    rw [rowCells] at first
    split at first
    · cases first
      refine ⟨⟨b.elem, [count] ++ b.shape, copies count b.data⟩, ?_, rfl, rfl, fun void => ?_⟩
      · rw [replicate, volume]
      · apply Array.eq_empty_of_size_eq_zero
        rw [size_copies, Array.isEmpty_iff.mp void]
        rfl
    · cases first
  | mem n space => cases first

end ArrayValue

namespace MapKernel

theorem assemble_in_order {env : Env} {dims : List Nat} {ret : Ty × List Nat} {rows : List Value} {out : Value}
    (ordered : nondecreasing ret.2 = true) (h : assemble env dims ret rows = .ok out) :
    ∃ shape e flat, env.sizes ret.1.shape = .ok shape ∧ ret.1.elem = some e ∧ ArrayValue.ofRows e shape rows = .ok flat ∧
      volume (dims ++ shape) = flat.data.size ∧ out = .array { flat with shape := dims ++ shape } := by
  obtain ⟨shape, sized, h⟩ := bind_eq_ok.mp h
  obtain ⟨e, typed, h⟩ := bind_eq_ok.mp h
  obtain ⟨flat, stacked, h⟩ := bind_eq_ok.mp h
  have elem : ret.1.elem = some e := by
    rw [Ty.resultElem] at typed
    split at typed
    · cases typed
      exact ‹_›
    · cases typed
  refine ⟨shape, e, flat, sized, elem, stacked, ?_⟩
  split at h
  · rename_i fits
    refine ⟨fits, ?_⟩
    split at h
    · cases h
      rfl
    · rename_i moved
      obtain ⟨_, turned, _⟩ := bind_eq_ok.mp h
      rw [ArrayValue.rearrange] at turned
      split at turned
      · rename_i permutes
        exact absurd (inPlace_of_nondecreasing ordered permutes) moved
      · cases turned
  · cases h

/-- What copies of a value give for an output. -/
inductive Copied (typed : Bool) (env : Env) (k : MapKernel) (ty : Ty) (value : Operand) : Value → Prop where
  | hollow {new : List Nat} (width : env.size k.width = .ok 0) (sizes : env.sizes (k.extents ++ ty.shape) = .ok new)
      (empty : volume new = 0) (dims : new ≠ []) : Copied typed env k ty value (.array ⟨.bool, new, #[]⟩)
  | copies {count : Nat} {x : Value} {a : ArrayValue} {new : List Nat} (width : env.size k.width = .ok count) (read : env.operand value = .ok x)
      (sturdy : x.isSturdy = true) (made : ArrayValue.replicate [count] x = .ok a) (sizes : env.sizes (k.extents ++ ty.shape) = .ok new)
      (fits : volume new = a.data.size) (dims : new ≠ []) : Copied typed env k ty value (Value.settled typed (.array { a with shape := new }))

section
variable {k : MapKernel} {count : Nat} {dims : List Nat} {rows : List (List Value)} {table : SymbolTable} {value : Operand} {j : Nat}
  {ret : Ty × List Nat} {out : Value}

/-- A result that is not bound in the kernel is read from around it. -/
theorem Threads.invariant (threads : k.Threads how σ count dims rows) (invariant : invariantResult table (k.body.bound ++ k.threadNames) value = true)
    (result : k.body.result[j]? = some value) (returned : k.returns[j]? = some ret) {row : List Value} (mem : row ∈ rows) :
    ∃ x, σ.env.operand value = .ok x ∧ row[j]? = some x ∧ x.isSturdy = true ∧ x.hasElem how.typed ret.1 = true := by
  obtain ⟨e, frame, ran, declared, full⟩ := threads.row mem
  rw [Body.run_eq] at ran
  obtain ⟨τ, first, results⟩ := bind_eq_ok.mp ran
  have results := mapM_eq_ok.mp results
  obtain ⟨below, rfl⟩ := List.getElem?_eq_some_iff.mp result
  have inRow : j < row.length := results.length_eq ▸ below
  have inReturns : j < k.returns.length := full ▸ inRow
  have read : τ.env.operand k.body.result[j] = .ok row[j] := results.get below inRow
  have outside : τ.env.operand k.body.result[j] = σ.env.operand k.body.result[j] := by
    apply Env.operand_congr
    intro v free
    cases value : k.body.result[j] with
    | const c =>
      rw [value] at free
      exact absurd free (NameSet.not_mem_empty v)
    | var w =>
      rw [value] at free invariant
      cases NameSet.mem_singleton.mp free
      simp only [invariantResult, Bool.and_eq_true, decide_eq_true_eq, List.mem_append, not_or, Body.bound_eq] at invariant
      have last : τ.env.get? v = e.get? v :=
        congrArg Cell.value (runStms_sameBut first v fun own => invariant.2.1 (mem_boundInStms_of_stmNames own))
      rw [last, frame v invariant.2.2]
  have declared : (row[j].isSturdy && row[j].hasElem how.typed k.returns[j].1) = true := by
    rw [declares, List.all_eq_true] at declared
    refine declared (row[j], k.returns[j]) (List.mem_iff_getElem.mpr ⟨j, ?_, List.getElem_zip⟩)
    rw [List.length_zip]
    omega
  rw [Bool.and_eq_true] at declared
  cases (List.getElem?_eq_getElem inReturns).symm.trans returned
  exact ⟨row[j], outside ▸ read, List.getElem?_eq_getElem inRow, declared⟩

/-- An output that is the same in every thread is made of copies of one value. -/
theorem Threads.copied (threads : k.Threads how σ count dims rows) (invariant : invariantResult table (k.body.bound ++ k.threadNames) value = true)
    (result : k.body.result[j]? = some value) (returned : k.returns[j]? = some ret) (ordered : nondecreasing ret.2 = true)
    (assembled : assemble σ.env dims ret (column j rows) = .ok out) : Copied how.typed σ.env k ret.1 value (out.settled how.typed) := by
  obtain ⟨shape, e, flat, sized, elem, stacked, fits, rfl⟩ := assemble_in_order ordered assembled
  have sizes : σ.env.sizes (k.extents ++ ret.1.shape) = .ok (dims ++ shape) :=
    mapM_eq_ok.mpr (List.rel_append (mapM_eq_ok.mp threads.extents) (mapM_eq_ok.mp sized))
  have dimensions : dims ++ shape ≠ [] := fun none => threads.dimensions (List.append_eq_nil_iff.mp none).1
  have length : rows.length = count := by rw [← threads.each.length_eq, List.length_range]
  have each := fun row (mem : row ∈ rows) => threads.invariant invariant result returned mem
  have width := threads.width
  rcases rows with _ | ⟨row, rows⟩
  · -- no thread, and so no elements
    cases length
    cases stacked
    rw [Value.settled, if_neg (by simp)]
    exact .hollow width sizes fits dimensions
  · obtain ⟨x, read, _, sturdy, typed⟩ := each row List.mem_cons_self
    have same : column j (row :: rows) = List.replicate count x := by
      rw [column, @List.filterMap_congr _ _ _ (fun _ => some x), List.filterMap_eq_map', List.map_const', length]
      intro row mem
      obtain ⟨y, again, there, _⟩ := each row mem
      cases read.symm.trans again
      exact there
    rw [same] at stacked
    obtain ⟨a, made, data, elem', void⟩ := ArrayValue.replicate_of_ofRows stacked (by rw [← length]; exact Nat.succ_pos _)
    have alike : Value.settled how.typed (.array { flat with shape := dims ++ shape }) =
        Value.settled how.typed (.array { a with shape := dims ++ shape }) := by
      simp only [Value.settled, ← data]
      split
      · rename_i counts
        rw [Bool.and_eq_true, Bool.not_eq_true', Array.isEmpty_eq_false_iff] at counts
        simp only [Value.hasElem, counts.1, Bool.not_true, Bool.false_or, Bool.or_eq_true, beq_iff_eq] at typed
        rcases typed with empty | declared
        · exact absurd (void empty) counts.2
        · obtain ⟨_, _, stacked⟩ := bind_eq_ok.mp stacked
          cases stacked
          cases elem'.symm.trans (declared.trans elem)
          rfl
      · rfl
    rw [alike]
    exact .copies width read sturdy made sizes (data ▸ fits) dimensions

variable {ty : Ty} {y : Value}

theorem Copied.agree {env env' : Env} (h : Copied how.typed env k ty value y) (agree : env.Agree S env') (width : InScope S k.width.free)
    (sizes : InScope S (freeOperands (k.extents ++ ty.shape))) (operand : InScope S value.free) : Copied how.typed env' k ty value y := by
  cases h with
  | hollow wide shape empty dims => exact .hollow (agree.size width ▸ wide) (agree.sizes sizes ▸ shape) empty dims
  | copies wide read sturdy made shape fits dims =>
    exact .copies (agree.size width ▸ wide) (agree.operand operand ▸ read) sturdy made (agree.sizes sizes ▸ shape) fits dims

end

end MapKernel

/-- A binding of one name. -/
theorem Stm.sole_of_ok {b : Binder} {certs : List Name} {e : Exp} {y : Value} (value : e.run (.lenient how) σ = .ok [y]) :
    ∃ τ, (⟨⟨[], [b]⟩, certs, e⟩ : Stm).run (.lenient how) σ = .ok τ ∧ (τ.cell b.name).value = some y := by
  obtain ⟨τ, ran, cell⟩ := @Stm.single_of_ok how σ b.name b.ty e y value
  refine ⟨τ, ?_, by rw [cell]⟩
  rw [← ran]
  exact Mode.settle_names ⟨rfl, rfl⟩ _ _

/-- The two bindings that build an output give it its value. -/
theorem MapKernel.Copied.run {k : MapKernel} {ty flatTy : Ty} {value : Operand} {y : Value} (h : Copied how.typed σ.env k ty value y)
    {flat : Name} {b : Binder} (certs : List Name) (fresh : ¬S flat) (sizes : InScope S (freeOperands (k.extents ++ ty.shape))) :
    ∃ τ, runStms (.lenient how) σ [⟨.single flat flatTy, certs, .replicate [k.width] value⟩,
        ⟨⟨[], [b]⟩, certs, .reshape (k.extents ++ ty.shape) flat⟩] = .ok τ ∧ (τ.cell b.name).value = some y := by
  -- the second binding, behind a first one
  have behind {υ : Store} (first : (⟨.single flat flatTy, certs, .replicate [k.width] value⟩ : Stm).run (.lenient how) σ = .ok υ)
      (reshaped : Lenient.leaf how.typed υ (.reshape (k.extents ++ ty.shape) flat) = .ok [y]) :
      ∃ τ, runStms (.lenient how) σ [⟨.single flat flatTy, certs, .replicate [k.width] value⟩,
        ⟨⟨[], [b]⟩, certs, .reshape (k.extents ++ ty.shape) flat⟩] = .ok τ ∧ (τ.cell b.name).value = some y := by
    obtain ⟨τ, ran, there⟩ := @Stm.sole_of_ok how υ b certs (.reshape (k.extents ++ ty.shape) flat) y reshaped
    refine ⟨τ, ?_, there⟩
    rw [runStms_cons, first, ok_bind, runStms_cons, ran]
    rfl
  have agree {υ : Store} (first : (⟨.single flat flatTy, certs, .replicate [k.width] value⟩ : Stm).run (.lenient how) σ = .ok υ) :
      υ.env.sizes (k.extents ++ ty.shape) = σ.env.sizes (k.extents ++ ty.shape) := by
    have same : σ.env.Agree S υ.env := Store.SameBut.agree (Stm.run_sameBut first) fun v own => List.mem_singleton.mp own ▸ fresh
    exact (same.sizes sizes).symm
  have measured {count : Nat} (width : σ.env.size k.width = .ok count) : σ.env.sizes [k.width] = .ok [count] :=
    mapM_eq_ok.mpr (.cons width .nil)
  cases h with
  | copies width read sturdy made shape fits dims =>
    rename_i count x a new
    have copied : (Exp.replicate [k.width] value).run (.lenient how) σ = .ok [.array a] := by
      change Lenient.leaf how.typed σ (.replicate [k.width] value) = _
      rw [Lenient.leaf, measured width, ok_bind, read, ok_bind, if_pos sturdy, made]
      rfl
    obtain ⟨υ, first, cell⟩ := @Stm.single_of_ok how σ flat flatTy _ _ copied
    apply behind first
    have there : υ.env.get? flat = some (.array a) := congrArg Cell.value cell
    have reshaped : (Exp.reshape (k.extents ++ ty.shape) flat).eval υ.env = .ok [.array { a with shape := new }] := by
      rw [Exp.eval, Env.array_eq_ok.mpr there, ok_bind, agree first, shape, ok_bind, ArrayValue.reshape, if_pos ⟨fits, dims⟩]
    rw [Lenient.leaf_reshape, there, if_neg (by simp), reshaped]
    rfl
  | hollow width shape empty dims =>
    cases ran : (Exp.replicate [k.width] value).run (.lenient how) σ with
    | ok vs =>
      obtain ⟨outer, sized, made⟩ := bind_eq_ok.mp (show Lenient.leaf how.typed σ (.replicate [k.width] value) = .ok vs from ran)
      cases (measured width).symm.trans sized
      obtain ⟨x, _, made⟩ := bind_eq_ok.mp made
      split at made
      · obtain ⟨a, copied, same⟩ := bind_eq_ok.mp made
        cases same
        obtain ⟨υ, first, cell⟩ := @Stm.single_of_ok how σ flat flatTy _ _ ran
        apply behind first
        have there : υ.env.get? flat = some (.array a) := congrArg Cell.value cell
        exact Lenient.reshape_empty there (ArrayValue.replicate_empty (Nat.zero_mul _) copied) ((agree first).trans shape) ⟨empty, dims⟩
      · cases made
    | error err =>
      -- the value of the output need not exist where no thread has run
      obtain ⟨υ, first, cell⟩ := @Stm.single_of_error how σ flat flatTy _ _ ran (Bool.or_true _)
      apply behind first
      have absent : υ.env.get? flat = none := congrArg Cell.value cell
      have hollow : υ.notes.failed flat = some true := by
        have failed : υ.notes.failed flat = some (σ.hollow (.single flat flatTy) (.replicate [k.width] value)) := congrArg Cell.failed cell
        rw [failed, Store.hollow, measured width]
        rfl
      rw [Lenient.leaf_reshape, absent, Option.isNone_none, if_pos rfl, if_pos hollow, Lenient.fill, agree first, shape, ok_bind, if_pos ⟨empty, dims⟩]

/-- The bindings that build outputs give each its value. -/
theorem replicateOutputs_run {stm : Stm} {k : MapKernel} {outputs : List (Binder × (Ty × List Nat) × Operand)} {names names' : NameSupply}
    {stms : List Stm} {ys : List Value} (h : replicateOutputs stm k outputs names = (stms, names'))
    (certified : InScope S (freeNames stm.certs)) (width : InScope S k.width.free) (extents : InScope S (freeOperands k.extents))
    (inside : ∀ o ∈ outputs, InScope S (o.1.free ∪ o.2.1.1.free ∪ o.2.2.free)) (fits : Fits S names.next (outputs.map fun o => o.1.name))
    (full : outputs.length = ys.length) (copied : ∀ p ∈ outputs.zip ys, MapKernel.Copied how.typed σ.env k p.1.2.1.1 p.1.2.2 p.2) :
    ∃ τ, runStms (.lenient how) σ stms = .ok τ ∧ ∀ p ∈ outputs.zip ys, (τ.cell p.1.1.name).value = some p.2 := by
  induction outputs generalizing names stms σ ys with
  | nil =>
    cases h
    exact ⟨σ, rfl, fun _ mem => absurd mem List.not_mem_nil⟩
  | cons output outputs ih =>
    obtain ⟨y, ys, rfl⟩ := List.exists_cons_of_length_eq_add_one full.symm
    obtain ⟨b, ⟨ty, perm⟩, value⟩ := output
    rw [replicateOutputs] at h
    dsimp only [NameSupply.fresh] at h
    rcases made : replicateOutputs stm k outputs ⟨names.next + 1⟩ with ⟨more, names₁⟩
    rw [made] at h
    cases h
    rw [List.zip_cons_cons, List.forall_mem_cons] at copied
    obtain ⟨here, later⟩ := List.forall_mem_cons.mp inside
    simp only [InScope.union_iff] at here
    have fresh : ¬S ⟨b.name.base ++ "_flat", names.next⟩ := fun visible => Nat.lt_irrefl _ (fits.scope _ visible)
    obtain ⟨υ, ran, value⟩ := @MapKernel.Copied.run how S σ k ty (ty.addDims [k.width]) value y copied.1 _ b stm.certs fresh
      (Ty.inScope_dims extents here.1.2)
    -- the bindings of the others stand behind, and bind other names
    have rest : Fits S (names.next + 1) (b.name :: outputs.map fun o => o.1.name) := fits.later (Nat.le_succ _)
    have agree : σ.env.Agree S υ.env := by
      apply Store.SameBut.agree (runStms_sameBut ran)
      intro v own
      rcases List.mem_cons.mp own with rfl | own
      · exact fresh
      · exact fits.apart v (List.mem_singleton.mp own ▸ List.mem_cons_self)
    obtain ⟨τ, ranRest, values⟩ := ih made later (@Fits.right S _ [b.name] _ rest) (Nat.succ.inj full) fun p mem => by
      have scopes := later p.1 (List.of_mem_zip mem).1
      simp only [InScope.union_iff] at scopes
      exact (copied.2 p mem).agree agree width (Ty.inScope_dims extents scopes.1.2) scopes.2
    refine ⟨τ, (runStms_append [_, _] more).trans ?_, ?_⟩
    · rw [ran]
      exact ranRest
    · rw [List.zip_cons_cons, List.forall_mem_cons]
      refine ⟨?_, values⟩
      have moved := ((replicateOutputs_moves made certified width extents later).under [b.name]).fits rest
      rw [runStms_sameBut ranRest _ fun own => ?_]
      · exact value
      · exact (List.nodup_append.mp moved.distinct).2.2 _ (mem_boundInStms_of_stmNames own) _ List.mem_cons_self rfl

section
variable {table : SymbolTable} {stm : Stm} {k : MapKernel} {vs : List Value}

theorem movedOutputs_eq (flagged : Flagged (invariantFlags table k) stm k) :
    movedOutputs table stm k = pick (invariantFlags table k) (stm.pat.values.zip (k.returns.zip k.body.result)) := by
  have results : k.returns.length = k.body.result.length := flagged.returns.symm.trans flagged.results
  have values : stm.pat.values.length = (k.returns.zip k.body.result).length := by
    rw [List.length_zip, ← results, Nat.min_self, ← flagged.values, flagged.returns]
  rw [movedOutputs, pick_zip _ results, pick_zip _ values]

/-- The place of a moved output among all outputs. -/
theorem movedOutputs_place (flagged : Flagged (invariantFlags table k) stm k) (full : vs.length = stm.pat.values.length)
    {o : Binder × (Ty × List Nat) × Operand} {y : Value} (mem : (o, y) ∈ (movedOutputs table stm k).zip (pick (invariantFlags table k) vs)) :
    invariantResult table (k.body.bound ++ k.threadNames) o.2.2 = true ∧ o.2.1 ∈ pick (invariantFlags table k) k.returns ∧
      ∃ j : Nat, k.returns[j]? = some o.2.1 ∧ k.body.result[j]? = some o.2.2 ∧ vs[j]? = some y := by
  obtain ⟨_, rest⟩ := List.of_mem_zip (List.of_mem_zip mem).1
  obtain ⟨returned, result⟩ := List.of_mem_zip rest
  rw [invariantFlags, pick_map, List.mem_filter] at result
  rw [movedOutputs_eq flagged, pick_zip _ (by simp [full, ← flagged.values, ← flagged.returns, ← flagged.results])] at mem
  obtain ⟨j, found⟩ := List.mem_iff_getElem?.mp ((pick_sublist _ _).subset mem)
  simp only [List.getElem?_zip_eq_some] at found
  exact ⟨result.2, returned, j, found.1.2.1, found.1.2.2, found.2⟩

/-- The outputs that are moved out of a kernel with values are made of copies. -/
theorem movedOutputs_copied (flagged : Flagged (invariantFlags table k) stm k)
    (ordered : ∀ r ∈ pick (invariantFlags table k) k.returns, nondecreasing r.2 = true) (runs : (Kernel.map k).run (.lenient how) σ = .ok vs)
    (full : vs.length = stm.pat.values.length) :
    ∀ p ∈ (movedOutputs table stm k).zip (pick (invariantFlags table k) vs),
      MapKernel.Copied how.typed σ.env k p.1.2.1.1 p.1.2.2 p.2 := by
  obtain ⟨count, dims, rows, outs, threads, assembled, rfl⟩ := MapKernel.run_eq_ok.mp runs
  intro p mem
  obtain ⟨invariant, returned, j, returnedHere, resultHere, here⟩ := movedOutputs_place flagged full mem
  rw [List.getElem?_map] at here
  obtain ⟨out, outHere, same⟩ := Option.map_eq_some_iff.mp here
  rw [← same]
  exact threads.copied invariant resultHere returnedHere (ordered _ returned) (MapKernel.assemble_of_columns assembled returnedHere outHere)

/-- Outputs that are the same in every thread are built outside of the kernel. -/
theorem hoistInvariantOutputs_sound : TopDownRule.Sound how hoistInvariantOutputs := by
  intro table stm names new names' S applied _ fits within σ _ τ ran
  obtain ⟨k, stms, launched, flagged, _, ordered, made, shape⟩ := hoistInvariantOutputs_eq_some applied
  have distinct : stm.pat.names.Nodup := fits.left.distinct
  rcases Stm.launched_cases launched flagged.context distinct ran with ⟨vs, runs, full, cells⟩ | ⟨lax, failed⟩
  · obtain ⟨inside, inner⟩ := within.launched launched fits
    obtain ⟨operands, _, _⟩ := (Kernel.scoped_map k).mp inside
    simp only [InScope.union_iff] at operands
    have all := Pattern.names_eq flagged.context
    have matched : (invariantFlags table k).length = (stm.pat.values.zip vs).length := by
      rw [List.length_zip, full, Nat.min_self, flagged.values]
    have scopes := @movedOutputs_inScope S table stm k launched flagged.context within
    have movedFits : Fits S names.next ((movedOutputs table stm k).map fun o => o.1.name) := by
      rw [movedOutputs_names flagged]
      refine fits.left.part fun v => ?_
      rw [all]
      exact ((pick_sublist _ _).map Binder.name).count_le v
    have movedLength : (movedOutputs table stm k).length = (pick (invariantFlags table k) vs).length := by
      rw [← List.length_map Prod.fst, movedOutputs_fst flagged, length_pick flagged.values, length_pick (flagged.values.trans full.symm)]
    obtain ⟨υ, ranFirst, values⟩ := replicateOutputs_run made within.1 operands.1.1.2 operands.1.2 scopes movedFits movedLength
      (movedOutputs_copied flagged ordered runs full)
    have moved (p : Binder × Value) (mem : p ∈ pick (invariantFlags table k) (stm.pat.values.zip vs)) :
        (υ.cell p.1.name).value = some p.2 := by
      rw [← pick_zip _ full.symm, ← movedOutputs_fst flagged, List.zip_map_left] at mem
      obtain ⟨q, among, rfl⟩ := List.mem_map.mp mem
      exact values q among
    rcases shape with ⟨rfl, every⟩ | rfl
    · refine ⟨υ, ranFirst, fun v own _ => ?_⟩
      obtain ⟨p, among, rfl⟩ := Pattern.exists_value flagged.context full own
      rw [cells p among]
      apply Cell.Below.of_value
      apply moved
      rwa [pick_all every matched]
    · have flagged' : Flagged ((invariantFlags table k).map (!·)) stm k := by
        constructor
        · exact flagged.context
        · rw [List.length_map, flagged.values]
        · rw [List.length_map, flagged.returns]
        · rw [List.length_map, flagged.results]
      obtain ⟨τ₁, ranRest, others⟩ := keepOutputs_run flagged' distinct runs full
      have apart := ((replicateOutputs_moves made within.1 operands.1.1.2 operands.1.2 scopes).fits movedFits).left.apart
      have placed := (keepOutputs_moves (n := names.next) ((invariantFlags table k).map (!·)) launched flagged.context within).before
      have kept : (keepOutputs ((invariantFlags table k).map (!·)) stm k).pat.names = pick ((invariantFlags table k).map (!·)) stm.pat.names :=
        Pattern.names_pick flagged.context _
      -- behind the outputs that are moved, what is left of the kernel has the values that it has before them
      obtain ⟨τ₂, ranLast, more⟩ := Stm.run_of_sameBut ranRest (runStms_sameBut ranFirst) (stmsScoped_cons.mp placed).1 (by
        rw [keepOutputs, Exp.bound, Kernel.bound_map, Body.bound_eq, ← Body.bound_eq k.body]
        exact inner.distinct) fun v own => apart v (mem_boundInStms_of_stmNames own)
      refine ⟨τ₂, ?_, fun v own _ => ?_⟩
      · rw [runStms_append, ranFirst, ok_bind, runStms_cons, ranLast]
        rfl
      · obtain ⟨p, among, rfl⟩ := Pattern.exists_value flagged.context full own
        have name {flags : List Bool} (picked : p ∈ pick flags (stm.pat.values.zip vs)) : p.1.name ∈ pick flags stm.pat.names := by
          rw [← pick_zip _ full.symm] at picked
          rw [all, ← map_pick]
          exact List.mem_map_of_mem (List.of_mem_zip picked).1
        rw [cells p among]
        rcases mem_pick_or matched among with first | second
        · apply Cell.Below.of_value
          rw [Stm.run_frame ranLast fun mem => ?_]
          · exact moved p first
          · rw [kept] at mem
            have lengths : (invariantFlags table k).length = stm.pat.names.length := by rw [all, List.length_map, flagged.values]
            have divided := (pick_perm lengths).nodup_iff.mpr distinct
            exact (List.nodup_append.mp divided).2.2 _ (name first) _ mem rfl
        · rw [← others p second]
          exact more _ (kept ▸ name second)
  · exact Replaces.of_failed lax failed

end

end ArrayKernels
