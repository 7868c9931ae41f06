import ArrayKernels.Proofs.Executes
import ArrayKernels.Proofs.Readings

/-! Comparing two runs of kernels. Given that their operands have the same values and that their
bodies or operators follow each other wherever they are run, so do the kernels. -/
namespace ArrayKernels

variable {l : Likeness} {both : Prop} {env env' : Env}

/-- Lists of values that are alike. -/
abbrev ValuesAlike (l : Likeness) : List Value → List Value → Prop := List.Forall₂ (Value.Alike l)

theorem resultElem_follows {ty ty' : Ty} (same : ty.elem = ty'.elem) : Follows both Eq ty.resultElem ty'.resultElem := by
  rw [Ty.resultElem, Ty.resultElem, same]
  cases ty'.elem with
  | none => exact .error _ _
  | some e => exact .ok rfl

theorem getElem?_alike {xs ys : List Value} (h : ValuesAlike l xs ys) (j : Nat) :
    Option.Rel (Value.Alike l) xs[j]? ys[j]? := by
  induction h generalizing j with
  | nil => exact .none
  | cons head _ ih =>
    cases j with
    | zero => exact .some head
    | succ j => exact ih j

theorem column_alike {steps steps' : List (List Value)} (h : List.Forall₂ (ValuesAlike l) steps steps') (j : Nat) :
    ValuesAlike l (column j steps) (column j steps') := by
  induction h with
  | nil => exact .nil
  | cons head _ ih =>
    rw [column, column, List.filterMap_cons, List.filterMap_cons]
    have first := getElem?_alike head j
    revert first
    generalize (_ : List Value)[j]? = x
    generalize (_ : List Value)[j]? = y
    intro first
    cases first with
    | none => exact ih
    | some alike => exact .cons alike ih

theorem rows_follow {arrays arrays' : List ArrayValue} (h : List.Forall₂ (ArrayValue.Alike l) arrays arrays') (i : Nat) :
    Follows both (ValuesAlike l) (arrays.mapM (·.row i)) (arrays'.mapM (·.row i)) :=
  .mapM (h.imp fun _ _ alike => ArrayValue.row_follows alike i)

theorem count_alike (n : Nat) : (Value.count n).Alike l (Value.count n) := .scalar _

namespace MapKernel

theorem assemble_follows {space : List Nat} {ret ret' : Ty × List Nat} {rows rows' : List Value}
    (elem : ret.1.elem = ret'.1.elem) (order : ret.2 = ret'.2)
    (shape : Follows both Eq (env.sizes ret.1.shape) (env'.sizes ret'.1.shape)) (alike : ValuesAlike l rows rows') :
    Follows both (Value.Alike l) (assemble env space ret rows) (assemble env' space ret' rows') := by
  rw [assemble, assemble, order]
  refine shape.bind fun rowShape _ _ _ same => ?_
  subst same
  refine (resultElem_follows elem).bind fun e _ _ _ same => ?_
  subst same
  refine (ArrayValue.ofRows_follows alike (.inl rfl)).bind fun flat flat' _ _ stacked => ?_
  rw [stacked.data]
  refine .ite (fun fits => ?_) fun _ => .error _ _
  have out : ArrayValue.Alike l ⟨flat.elem, space ++ rowShape, flat'.data⟩ ⟨flat'.elem, space ++ rowShape, flat'.data⟩ :=
    ⟨rfl, rfl, stacked.data ▸ stacked.elem, fun _ => fits.symm⟩
  refine .ite (fun _ => .ok (.array out)) fun _ => ?_
  exact (ArrayValue.rearrange_follows out ret'.2).bind fun a b _ _ alike => .ok (.array alike)

theorem run_follows {k k' : MapKernel} {run run' : Env → Eval (List Value)} {T : Env → Env → Prop}
    (width : Follows both Eq (env.size k.width) (env'.size k'.width))
    (extents : Follows both Eq (env.sizes k.extents) (env'.sizes k'.extents))
    (threads : ∀ dims t, env.sizes k.extents = .ok dims → Follows both T (k.threadEnv dims env t) (k'.threadEnv dims env' t))
    (body : ∀ e e', k.Feeds run env e → k'.Feeds run' env' e' → T e e' → Follows both (ValuesAlike l) (run e) (run' e'))
    (returns : List.Forall₂ (fun r r' => r.1.elem = r'.1.elem ∧ r.2 = r'.2 ∧
      Follows both Eq (env.sizes r.1.shape) (env'.sizes r'.1.shape)) k.returns k'.returns) :
    Follows both (ValuesAlike l) (k.run run env) (k'.run run' env') := by
  refine width.bind fun w _ sized sized' same => ?_
  subst same
  refine extents.bind fun dims _ measured measured' same => ?_
  subst same
  refine Follows.bind (?_ : Follows both (List.Forall₂ (ValuesAlike l)) _ _) fun results results' _ _ alike => ?_
  · refine .collect fun t reached reached' => ?_
    refine (threads dims t measured).bind fun e e' made made' related => ?_
    refine (body e e' ⟨w, dims, t, sized, measured, reached, made⟩ ⟨w, dims, t, sized', measured', reached', made'⟩
      related).bind fun values values' _ _ alike => ?_
    rw [alike.length_eq, returns.length_eq]
    exact .ite (fun _ => .ok alike) fun _ => .error _ _
  · refine .mapM ((forall₂_zipIdx returns 0).imp fun rj rj' h => ?_)
    rw [h.2]
    exact assemble_follows h.1.1 h.1.2.1 h.1.2.2 (column_alike alike rj'.2)

end MapKernel

namespace ScanKernel

theorem assemble_follows {neutral neutral' : Operand} {rows rows' : List Value}
    (operand : Follows both (Value.Alike l) (env.operand neutral) (env'.operand neutral')) (alike : ValuesAlike l rows rows') :
    Follows both (Value.Alike l) (assemble env neutral rows) (assemble env' neutral' rows') := by
  rw [assemble, assemble]
  refine operand.bind fun ne ne' _ _ same => ?_
  cases same with
  | scalar c => exact (ArrayValue.ofRows_follows alike (.inl rfl)).bind fun a b _ _ alike => .ok (.array alike)
  | mem same => exact .error _ _
  | array same =>
    rename_i a b
    simp only [Value.elem, Value.shape, same.shape]
    refine (ArrayValue.ofRows_follows alike (same.elem.imp_right (Or.imp_right ?_))).bind
      fun a b _ _ alike => .ok (.array alike)
    · rintro ⟨overlooked, empty⟩
      refine ⟨overlooked, ?_⟩
      have regular := same.regular (l.regular_of_elems overlooked)
      rw [volume, ← same.shape, ← regular, empty]
      rfl

theorem step_follows {k k' : ScanKernel} {fold fold' : List Value → Eval (List Value)} {width i : Nat}
    {arrays arrays' : List ArrayValue} {start start' accs accs' : List Value}
    (sized : env.size k.width = .ok width) (sized' : env'.size k'.width = .ok width)
    (read : k.arrays.mapM env.array = .ok arrays) (read' : k'.arrays.mapM env'.array = .ok arrays')
    (begun : k.neutral.mapM env.operand = .ok start) (begun' : k'.neutral.mapM env'.operand = .ok start')
    (body : ∀ args args', k.Feeds fold env args → k'.Feeds fold' env' args' → ValuesAlike l args args' →
      Follows both (ValuesAlike l) (fold args) (fold' args'))
    (alike : List.Forall₂ (ArrayValue.Alike l) arrays arrays') (started : ValuesAlike l start start') (below : i < width)
    (now : ValuesAlike l accs accs') (done : iterate (step fold arrays start.length) i 0 start = .ok accs)
    (done' : iterate (step fold' arrays' start'.length) i 0 start' = .ok accs') :
    Follows both (ValuesAlike l) (step fold arrays start.length i accs) (step fold' arrays' start'.length i accs') := by
  refine (rows_follow alike i).bind fun elems elems' taken taken' row => ?_
  have args : ValuesAlike l (.count i :: accs ++ elems) (.count i :: accs' ++ elems') :=
    List.rel_append (.cons (count_alike i) now) row
  refine (body _ _ ⟨width, arrays, start, i, accs, elems, sized, read, begun, below, done, taken, rfl⟩
    ⟨width, arrays', start', i, accs', elems', sized', read', begun', below, done', taken', rfl⟩ args).bind
    fun next next' _ _ related => ?_
  rw [related.length_eq, started.length_eq]
  exact .ite (fun _ => .ok related) fun _ => .error _ _

theorem run_follows {k k' : ScanKernel} {fold fold' : List Value → Eval (List Value)}
    (width : Follows both Eq (env.size k.width) (env'.size k'.width))
    (arrays : Follows both (List.Forall₂ (ArrayValue.Alike l)) (k.arrays.mapM env.array) (k'.arrays.mapM env'.array))
    (neutral : Env.OperandsFollow both l env env' k.neutral k'.neutral)
    (body : ∀ args args', k.Feeds fold env args → k'.Feeds fold' env' args' → ValuesAlike l args args' →
      Follows both (ValuesAlike l) (fold args) (fold' args')) :
    Follows both (ValuesAlike l) (k.run fold env) (k'.run fold' env') := by
  refine width.bind fun w _ sized sized' same => ?_
  subst same
  refine arrays.bind fun arrays arrays' read read' alike => ?_
  refine (Env.operands_follow neutral).bind fun start start' begun begun' started => ?_
  -- that the run comes to a step is part of the invariant, since the operator is only compared where it is run
  let inv (i : Nat) (accs accs' : List Value) : Prop := ValuesAlike l accs accs' ∧
    iterate (step fold arrays start.length) i 0 start = .ok accs ∧
    iterate (step fold' arrays' start'.length) i 0 start' = .ok accs'
  have steps (i : Nat) (accs accs' : List Value) (_ : 0 ≤ i) (below : i < 0 + w) (h : inv i accs accs') :
      Follows both (inv (i + 1)) (step fold arrays start.length i accs) (step fold' arrays' start'.length i accs') := by
    obtain ⟨now, done, done'⟩ := h
    refine (step_follows sized sized' read read' begun begun' body alike started (by omega) now done done').imp
      fun next next' stepped stepped' related => ⟨related, ?_, ?_⟩
    · exact iterate_succ_last done (by rwa [Nat.zero_add])
    · exact iterate_succ_last done' (by rwa [Nat.zero_add])
  refine Follows.bind (?_ : Follows both (List.Forall₂ (ValuesAlike l)) _ _) fun rows rows' _ _ related => ?_
  · exact @Follows.scanFrom _ _ both (ValuesAlike l) _ _ inv w 0 start start' ⟨started, rfl, rfl⟩ steps fun _ _ _ h => h.1
  · refine .mapM ((forall₂_zipIdx neutral 0).imp fun nj nj' h => ?_)
    rw [h.2]
    exact assemble_follows h.1 (column_alike related nj'.2)

end ScanKernel

namespace ChunkedKernel

theorem chunkRowShape_eq {x y : Value} (h : x.Alike l y) : chunkRowShape x = chunkRowShape y := by
  cases h with
  | scalar c => rfl
  | mem alike => rfl
  | array alike => rw [chunkRowShape, chunkRowShape, alike.rows_eq, alike.shape]

theorem assemble_follows {width : Nat} {ty ty' : Ty} {chunks chunks' : List (List Nat × Value)}
    (elem : ty.elem = ty'.elem) (rowShape : env.rowShape ty = env'.rowShape ty')
    (alike : List.Forall₂ (ChunkAlike l) chunks chunks') :
    Follows both (Value.Alike l) (assemble env width ty chunks) (assemble env' width ty' chunks') := by
  have shapes : (chunks.findSome? fun c => chunkRowShape c.2) = chunks'.findSome? fun c => chunkRowShape c.2 := by
    induction alike with
    | nil => rfl
    | cons head _ ih => rw [List.findSome?_cons, List.findSome?_cons, chunkRowShape_eq head.2, ih]
  rw [assemble, assemble, shapes, rowShape]
  refine (resultElem_follows elem).bind fun e _ _ _ same => ?_
  subst same
  exact joinChunks_follows e _ width alike

theorem outputs_alike {results results' : List (List Nat × List Value)}
    (h : List.Forall₂ (fun r r' => r.1 = r'.1 ∧ ValuesAlike l r.2 r'.2) results results') (j : Nat) :
    List.Forall₂ (ChunkAlike l) (results.filterMap fun r => (r.2[j]?).map (r.1, ·))
      (results'.filterMap fun r => (r.2[j]?).map (r.1, ·)) := by
  induction h with
  | nil => exact .nil
  | @cons r r' _ _ head _ ih =>
    rw [List.filterMap_cons, List.filterMap_cons]
    have first := getElem?_alike head.2 j
    revert first
    generalize r.2[j]? = x
    generalize r'.2[j]? = y
    intro first
    cases first with
    | none => exact ih
    | some alike => exact .cons ⟨head.1, alike⟩ ih

theorem run_follows {k k' : ChunkedKernel} {op op' : List Value → Eval (List Value)}
    (width : Follows both Eq (env.size k.width) (env'.size k'.width))
    (threads : Follows both Eq (env.size k.size.threads) (env'.size k'.size.threads))
    (chunk : Follows both Eq (env.size k.size.chunk) (env'.size k'.size.chunk)) (division : k.division = k'.division)
    (arrays : Follows both (List.Forall₂ (ArrayValue.Alike l)) (k.arrays.mapM env.array) (k'.arrays.mapM env'.array))
    (body : ∀ args args', k.Feeds op env args → k'.Feeds op' env' args' → ValuesAlike l args args' →
      Follows both (ValuesAlike l) (op args) (op' args'))
    (returns : List.Forall₂ (fun ty ty' => ty.elem = ty'.elem ∧ env.rowShape ty = env'.rowShape ty') k.op.ret k'.op.ret) :
    Follows both (ValuesAlike l) (k.run op env) (k'.run op' env') := by
  refine width.bind fun w _ sized sized' same => ?_
  subst same
  refine threads.bind fun n _ counted counted' same => ?_
  subst same
  refine chunk.bind fun c _ cut cut' same => ?_
  subst same
  refine arrays.bind fun arrays arrays' read read' alike => ?_
  refine Follows.bind (?_ : Follows both (List.Forall₂ fun r r' => r.1 = r'.1 ∧ ValuesAlike l r.2 r'.2) _ _)
    fun results results' _ _ related => ?_
  · refine .collect fun t reached reached' => ?_
    have numbers : k'.division.rows t n c w = k.division.rows t n c w := by rw [division]
    rw [thread, thread, numbers]
    refine (Follows.mapM (alike.imp fun a b same => ArrayValue.takeRows_follows same _)).bind
      fun chunks chunks' taken taken' parts => ?_
    have args : ValuesAlike l (.count t :: .count (k.division.rows t n c w).length :: chunks.map .array)
        (.count t :: .count (k.division.rows t n c w).length :: chunks'.map .array) := by
      refine .cons (count_alike _) (.cons (count_alike _) ?_)
      exact List.forall₂_map_left_iff.mpr (List.forall₂_map_right_iff.mpr (parts.imp fun _ _ => .array))
    refine (body _ _ ⟨w, n, c, arrays, t, chunks, sized, counted, cut, read, reached, taken, rfl⟩
      ⟨w, n, c, arrays', t, chunks', sized', counted', cut', read', reached', numbers ▸ taken', numbers ▸ rfl⟩ args).bind
      fun values values' _ _ same => .ok ⟨rfl, same⟩
  · refine .mapM ((forall₂_zipIdx returns 0).imp fun tj tj' h => ?_)
    rw [h.2]
    exact assemble_follows h.1.1 h.1.2 (outputs_alike related tj'.2)

end ChunkedKernel

namespace ScatterKernel

theorem writeDest_follows {results results' : List Value} (h : ValuesAlike l results results') (n j : Nat)
    {dest dest' : ArrayValue} (alike : dest.Alike l dest') :
    Follows both (ArrayValue.Alike l) (writeDest results n j dest) (writeDest results' n j dest') := by
  have place := getElem?_alike h j
  have value := getElem?_alike h (n + j)
  rw [writeDest, writeDest]
  revert place value
  generalize results[j]? = i
  generalize results'[j]? = i'
  generalize results[n + j]? = x
  generalize results'[n + j]? = x'
  intro place value
  cases place with
  | none => exact .error _ _
  | some place =>
    cases place with
    | array _ => exact .error _ _
    | mem _ => exact .error _ _
    | scalar c =>
      cases value with
      | none => exact .error _ _
      | some value =>
        cases word : c.asWord with
        | none =>
          simp only [word]
          exact .error _ _
        | some i =>
          simp only [word]
          exact ArrayValue.writeRow_follows alike i (.ok value) _

theorem step_follows {k k' : ScatterKernel} {op op' : List Value → Eval (List Value)} {width i : Nat}
    {arrays arrays' start start' dests dests' : List ArrayValue}
    (sized : env.size k.width = .ok width) (sized' : env'.size k'.width = .ok width)
    (read : k.arrays.mapM env.array = .ok arrays) (read' : k'.arrays.mapM env'.array = .ok arrays')
    (begun : (k.dests.mapM fun d => env.array d.2) = .ok start)
    (begun' : (k'.dests.mapM fun d => env'.array d.2) = .ok start')
    (body : ∀ args args', k.Feeds op env args → k'.Feeds op' env' args' → ValuesAlike l args args' →
      Follows both (ValuesAlike l) (op args) (op' args'))
    (alike : List.Forall₂ (ArrayValue.Alike l) arrays arrays') (below : i < width)
    (now : List.Forall₂ (ArrayValue.Alike l) dests dests') (done : iterate (step op arrays) i 0 start = .ok dests)
    (done' : iterate (step op' arrays') i 0 start' = .ok dests') :
    Follows both (List.Forall₂ (ArrayValue.Alike l)) (step op arrays i dests) (step op' arrays' i dests') := by
  refine (rows_follow alike i).bind fun elems elems' taken taken' row => ?_
  refine (body _ _ ⟨width, arrays, start, i, dests, elems, sized, read, begun, below, done, taken, rfl⟩
    ⟨width, arrays', start', i, dests', elems', sized', read', begun', below, done', taken', rfl⟩
    (.cons (count_alike i) row)).bind fun results results' _ _ related => ?_
  rw [related.length_eq, now.length_eq]
  refine .ite (fun _ => ?_) fun _ => .error _ _
  refine .mapM ((forall₂_zipIdx now 0).imp fun dj dj' h => ?_)
  rw [h.2]
  exact writeDest_follows related _ _ h.1

theorem run_follows {k k' : ScatterKernel} {op op' : List Value → Eval (List Value)}
    (width : Follows both Eq (env.size k.width) (env'.size k'.width))
    (arrays : Follows both (List.Forall₂ (ArrayValue.Alike l)) (k.arrays.mapM env.array) (k'.arrays.mapM env'.array))
    (dests : Follows both (List.Forall₂ (ArrayValue.Alike l)) (k.dests.mapM fun d => env.array d.2)
      (k'.dests.mapM fun d => env'.array d.2))
    (body : ∀ args args', k.Feeds op env args → k'.Feeds op' env' args' → ValuesAlike l args args' →
      Follows both (ValuesAlike l) (op args) (op' args')) :
    Follows both (ValuesAlike l) (k.run op env) (k'.run op' env') := by
  refine width.bind fun w _ sized sized' same => ?_
  subst same
  refine arrays.bind fun arrays arrays' read read' alike => ?_
  refine dests.bind fun start start' begun begun' started => ?_
  let inv (i : Nat) (dests dests' : List ArrayValue) : Prop := List.Forall₂ (ArrayValue.Alike l) dests dests' ∧
    iterate (step op arrays) i 0 start = .ok dests ∧ iterate (step op' arrays') i 0 start' = .ok dests'
  have steps (i : Nat) (dests dests' : List ArrayValue) (_ : 0 ≤ i) (below : i < 0 + w) (h : inv i dests dests') :
      Follows both (inv (i + 1)) (step op arrays i dests) (step op' arrays' i dests') := by
    obtain ⟨now, done, done'⟩ := h
    refine (step_follows sized sized' read read' begun begun' body alike (by omega) now done done').imp
      fun next next' stepped stepped' related => ⟨related, ?_, ?_⟩
    · exact iterate_succ_last done (by rwa [Nat.zero_add])
    · exact iterate_succ_last done' (by rwa [Nat.zero_add])
  refine Follows.bind (@Follows.iterate _ _ both _ _ inv w 0 start start' ⟨started, rfl, rfl⟩ steps)
    fun last last' _ _ related => .ok ?_
  exact List.forall₂_map_left_iff.mpr (List.forall₂_map_right_iff.mpr (related.1.imp fun _ _ => .array))

end ScatterKernel

end ArrayKernels
