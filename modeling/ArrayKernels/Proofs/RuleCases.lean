import ArrayKernels.Proofs.Reads
import ArrayKernels.Rule.Standard

/-! What each rule does to a statement, and when it declines. Whether a rule declines does not depend on the
supply of names. -/
namespace ArrayKernels

variable {table : SymbolTable} {stm : Stm} {names names' : NameSupply} {new : List Stm}

/-! Inputs of map kernels -/

theorem dropUnusedInputs_eq_some (h : dropUnusedInputs table stm names = some (new, names')) :
    ∃ k, stm.exp = .launch (.map k) ∧ (k.inputs.filter fun i => i.param.name ∈ k.body.free).length < k.inputs.length ∧
      new = [stm.withKernel (.map { k with inputs := k.inputs.filter fun i => i.param.name ∈ k.body.free })] ∧
      names' = names := by
  unfold dropUnusedInputs at h
  split at h
  · rename_i k launched
    dsimp only at h
    split at h
    · cases h
    · rename_i some
      cases h
      exact ⟨k, launched, Nat.lt_of_le_of_ne (List.length_filter_le _ _) some, rfl, rfl⟩
  · cases h

theorem dropUnusedInputs_steady (h : dropUnusedInputs table stm names = none) (names' : NameSupply) :
    dropUnusedInputs table stm names' = none := by
  unfold dropUnusedInputs at h ⊢
  split at h
  · dsimp only at h ⊢
    split at h
    · rw [if_pos ‹_›]
    · cases h
  · rfl

/-- An input is computed from the definition of its array in one statement, or, from an iota, in two. -/
theorem inlineInput_eq_some {consumed : Bool} {input : MapInput} {stms : List Stm}
    (h : inlineInput table consumed input names = some (stms, names')) :
    (∃ d e, table.defn input.array = some d ∧ d.isNested = false ∧ e.isNested = false ∧
      (∀ v ∈ e.free, v ∈ d.free ∨ v ∈ freeOperands input.indices) ∧
      stms = [.single input.param.name input.param.ty e] ∧ names' = names) ∨
    (∃ count start stride i, table.defn input.array = some (.iota count start stride) ∧ input.indices = [i] ∧
      stms = [.ofWord (names.fresh "iota_offset").1 (.binary .mul i stride),
        .single input.param.name input.param.ty (.binary .add start (.var (names.fresh "iota_offset").1))] ∧
      names' = (names.fresh "iota_offset").2) := by
  unfold inlineInput at h
  dsimp only at h
  split at h
  · rename_i array indices defined
    split at h <;> cases h
    refine .inl ⟨_, .index array (indices ++ input.indices), defined, rfl, rfl, fun v free => ?_, rfl, rfl⟩
    simp only [Exp.free, NameSet.mem_union, freeOperands, NameSet.mem_gather, List.mem_append] at free ⊢
    grind
  · rename_i array defined
    split at h <;> cases h
    exact .inl ⟨_, .index array input.indices, defined, rfl, rfl, fun v free => NameSet.mem_union.mp free, rfl, rfl⟩
  · rename_i count start stride defined
    split at h
    · rename_i i only
      cases h
      exact .inr ⟨count, start, stride, i, defined, only, rfl, rfl⟩
    · cases h
  · rename_i shape value defined
    split at h
    · split at h <;> cases h
      refine .inl ⟨_, .operand value, defined, rfl, rfl, fun v free => .inl ?_, rfl, rfl⟩
      exact NameSet.mem_union.mpr (.inr free)
    · split at h <;> cases h
      refine .inl ⟨_, .replicate (shape.drop input.indices.length) value, defined, rfl, rfl, fun v free => .inl ?_, rfl, rfl⟩
      simp only [Exp.free, NameSet.mem_union, freeOperands, NameSet.mem_gather] at free ⊢
      refine free.imp_left ?_
      rintro ⟨x, mem, read⟩
      exact ⟨x, List.mem_of_mem_drop mem, read⟩
  · cases h

theorem inlineInput_steady {consumed : Bool} {input : MapInput} (h : inlineInput table consumed input names = none)
    (names' : NameSupply) : inlineInput table consumed input names' = none := by
  unfold inlineInput at h ⊢
  dsimp only at h ⊢
  repeat' split at h
  all_goals simp_all

/-- Nothing is put into the body exactly if no input can be computed there. -/
theorem inlineEach_isEmpty (table : SymbolTable) (consumed : NameSet) (inputs : List MapInput) (names : NameSupply) :
    (inlineEach table consumed inputs names).1 = [] ↔
      ∀ input ∈ inputs, ∀ left, inlineInput table (input.param.name ∈ consumed) input left = none := by
  induction inputs generalizing names with
  | nil => simp [inlineEach]
  | cons input inputs ih =>
    rw [inlineEach, List.forall_mem_cons]
    split
    · rename_i stms left inlined
      constructor
      · intro none
        have nothing : stms = [] := (List.append_eq_nil_iff.mp none).1
        obtain ⟨_, _, _, _, _, _, made, _⟩ | ⟨_, _, _, _, _, _, made, _⟩ := inlineInput_eq_some inlined
        · cases nothing.symm.trans made
        · cases nothing.symm.trans made
      · intro declined
        rw [declined.1 names] at inlined
        cases inlined
    · rename_i declined
      exact ⟨fun none => ⟨inlineInput_steady declined, (ih names).mp none⟩, fun all => (ih names).mpr all.2⟩

theorem inlineInputs_eq_some (h : inlineInputs table stm names = some (new, names')) :
    ∃ k prelude kept, stm.exp = .launch (.map k) ∧
      inlineEach table k.body.consumed k.inputs names = (prelude, kept, names') ∧ prelude ≠ [] ∧
      new = [stm.withKernel (.map { k with inputs := kept, body := ⟨prelude ++ k.body.stms, k.body.result⟩ })] := by
  unfold inlineInputs at h
  split at h
  · rename_i k launched
    rcases made : inlineEach table k.body.consumed k.inputs names with ⟨prelude, kept, left⟩
    rw [made] at h
    dsimp only at h
    split at h
    · cases h
    · rename_i some
      cases h
      exact ⟨k, prelude, kept, launched, made, fun none => some (List.isEmpty_iff.mpr none), rfl⟩
  · cases h

theorem inlineInputs_steady (h : inlineInputs table stm names = none) (names' : NameSupply) :
    inlineInputs table stm names' = none := by
  unfold inlineInputs at h ⊢
  split at h
  · rename_i k _
    dsimp only at h ⊢
    split at h
    · rename_i none
      have all := (inlineEach_isEmpty table k.body.consumed k.inputs names).mp (List.isEmpty_iff.mp none)
      rw [if_pos (List.isEmpty_iff.mpr ((inlineEach_isEmpty table k.body.consumed k.inputs names').mpr all))]
    · cases h
  · rfl

/-! Outputs of map kernels -/

theorem length_pick {α : Type} {flags : List Bool} {xs : List α} (matched : flags.length = xs.length) :
    (pick flags xs).length = flags.count true := by
  induction flags generalizing xs with
  | nil => rfl
  | cons flag flags ih =>
    cases xs with
    | nil => cases matched
    | cons x xs =>
      have rest := ih (Nat.succ.inj matched)
      cases flag <;> simpa [pick] using rest

/-- The outputs that are moved out of a kernel. -/
def invariantFlags (table : SymbolTable) (k : MapKernel) : List Bool :=
  k.body.result.map (invariantResult table (k.body.bound ++ k.threadNames))

theorem Pattern.names_eq {pat : Pattern} (context : pat.context = []) : pat.names = pat.values.map Binder.name := by
  rw [names, binders, context, List.nil_append]

/-- A kernel statement has one name, one return and one result for each of its outputs, which are flagged. -/
structure Flagged (flags : List Bool) (stm : Stm) (k : MapKernel) : Prop where
  context : stm.pat.context = []
  values : flags.length = stm.pat.values.length
  returns : flags.length = k.returns.length
  results : flags.length = k.body.result.length

theorem Flagged.of_outputsAgree {k : MapKernel} {flags : List Bool} (h : outputsAgree stm k = true)
    (matched : flags.length = stm.pat.values.length ∨ flags.length = k.body.result.length) : Flagged flags stm k := by
  simp only [outputsAgree, Bool.and_eq_true, List.isEmpty_iff, beq_iff_eq] at h
  obtain ⟨⟨context, values⟩, results⟩ := h
  constructor <;> omega

/-- The outputs that are moved out of a kernel, each with its type and its result. -/
def movedOutputs (table : SymbolTable) (stm : Stm) (k : MapKernel) : List (Binder × (Ty × List Nat) × Operand) :=
  (pick (invariantFlags table k) stm.pat.values).zip
    ((pick (invariantFlags table k) k.returns).zip (pick (invariantFlags table k) k.body.result))

theorem hoistInvariantOutputs_eq_some (h : hoistInvariantOutputs table stm names = some (new, names')) :
    ∃ k stms, stm.exp = .launch (.map k) ∧ Flagged (invariantFlags table k) stm k ∧ true ∈ invariantFlags table k ∧
      (∀ r ∈ pick (invariantFlags table k) k.returns, nondecreasing r.2 = true) ∧
      replicateOutputs stm k (movedOutputs table stm k) names = (stms, names') ∧
      (new = stms ∧ (invariantFlags table k).all id = true ∨
        new = stms ++ [keepOutputs ((invariantFlags table k).map (!·)) stm k]) := by
  unfold hoistInvariantOutputs at h
  split at h
  · rename_i k launched
    dsimp only at h
    split at h
    · cases h
    · rename_i fits
      simp only [Bool.or_eq_true, not_or, Bool.not_eq_true', Bool.not_eq_false] at fits
      have flagged : Flagged (invariantFlags table k) stm k := .of_outputsAgree fits.1.1 (.inr (List.length_map _))
      have some : true ∈ invariantFlags table k := by simpa [invariantFlags] using fits.1.2
      have ordered : ∀ r ∈ pick (invariantFlags table k) k.returns, nondecreasing r.2 = true := by simpa [invariantFlags] using fits.2
      split at h
      · rename_i all
        cases h
        exact ⟨k, _, launched, flagged, some, ordered, rfl, .inl ⟨rfl, all⟩⟩
      · cases h
        exact ⟨k, _, launched, flagged, some, ordered, rfl, .inr rfl⟩
  · cases h

theorem hoistInvariantOutputs_steady (h : hoistInvariantOutputs table stm names = none) (names' : NameSupply) :
    hoistInvariantOutputs table stm names' = none := by
  unfold hoistInvariantOutputs at h ⊢
  split at h
  · dsimp only at h ⊢
    split at h
    · rw [if_pos ‹_›]
    · split at h <;> cases h
  · rfl

/-- The outputs that are referred to. -/
def usedFlags (usage : Usage) (stm : Stm) : List Bool := stm.pat.values.map fun b => usage.isUsed b.name

theorem dropDeadOutputs_eq_some {usage : Usage} (h : dropDeadOutputs table usage stm names = some (new, names')) :
    ∃ k, stm.exp = .launch (.map k) ∧ Flagged (usedFlags usage stm) stm k ∧ false ∈ usedFlags usage stm ∧
      names' = names ∧ (new = [] ∧ true ∉ usedFlags usage stm ∨ new = [keepOutputs (usedFlags usage stm) stm k]) := by
  unfold dropDeadOutputs at h
  split at h
  · rename_i k launched
    dsimp only at h
    split at h
    · cases h
    · rename_i fits
      simp only [Bool.or_eq_true, not_or, Bool.not_eq_true', Bool.not_eq_false] at fits
      have flagged : Flagged (usedFlags usage stm) stm k := .of_outputsAgree fits.1 (.inl (List.length_map _))
      have dead : false ∈ usedFlags usage stm := by simpa [usedFlags] using fits.2
      refine ⟨k, launched, flagged, dead, ?_⟩
      split at h
      · rename_i all
        cases h
        exact ⟨rfl, .inl ⟨rfl, by simpa [usedFlags] using all⟩⟩
      · cases h
        exact ⟨rfl, .inr rfl⟩
  · cases h

theorem dropDeadOutputs_steady {usage : Usage} (h : dropDeadOutputs table usage stm names = none) (names' : NameSupply) :
    dropDeadOutputs table usage stm names' = none := by
  unfold dropDeadOutputs at h ⊢
  split at h
  · dsimp only at h ⊢
    split at h
    · rw [if_pos ‹_›]
    · split at h <;> cases h
  · rfl

/-! Streamed iotas -/

theorem inlineChunkIotas_eq_some (h : inlineChunkIotas table stm names = some (new, names')) :
    ∃ k thread count params before, stm.exp = .launch (.chunked k) ∧ k.op.params = thread :: count :: params ∧
      params.length = k.arrays.length ∧ iotaParams table (params.zip k.arrays) ≠ [] ∧
      iotaChunks thread.name count.name k.size k.division (iotaParams table (params.zip k.arrays)) names = (before, names') ∧
      new = [stm.withKernel (.chunked { k with
        op := k.op.withStreams [thread, count] (otherStreams table (params.zip k.arrays)) before
        arrays := (otherStreams table (params.zip k.arrays)).map Prod.snd })] := by
  unfold inlineChunkIotas at h
  split at h
  · rename_i k launched
    split at h
    · rename_i thread count params given
      dsimp only at h
      split at h
      · cases h
      · rename_i fits
        cases h
        simp only [Bool.or_eq_true, not_or, decide_eq_true_eq, ne_eq, Decidable.not_not, List.isEmpty_iff] at fits
        exact ⟨k, thread, count, params, _, launched, given, fits.1, fits.2, rfl, rfl⟩
    · cases h
  · cases h

theorem inlineScanIotas_eq_some (h : inlineScanIotas table stm names = some (new, names')) :
    ∃ k index params streams, stm.exp = .launch (.scan k) ∧ k.fold.params = index :: params ∧
      params.length = k.neutral.length + k.arrays.length ∧ streams = (params.drop k.neutral.length).zip k.arrays ∧
      iotaParams table streams ≠ [] ∧ names' = names ∧
      new = [stm.withKernel (.scan { k with
        fold := k.fold.withStreams (index :: params.take k.neutral.length) (otherStreams table streams)
          (iotaElements index.name (iotaParams table streams))
        arrays := (otherStreams table streams).map Prod.snd })] := by
  unfold inlineScanIotas at h
  split at h
  · rename_i k launched
    split at h
    · rename_i index params given
      dsimp only at h
      split at h
      · cases h
      · rename_i fits
        cases h
        simp only [Bool.or_eq_true, not_or, decide_eq_true_eq, ne_eq, Decidable.not_not, List.isEmpty_iff] at fits
        exact ⟨k, index, params, _, launched, given, fits.1, rfl, fits.2, rfl, rfl⟩
    · cases h
  · cases h

theorem inlineScatterIotas_eq_some (h : inlineScatterIotas table stm names = some (new, names')) :
    ∃ k index params, stm.exp = .launch (.scatter k) ∧ k.op.params = index :: params ∧
      params.length = k.arrays.length ∧ iotaParams table (params.zip k.arrays) ≠ [] ∧ names' = names ∧
      new = [stm.withKernel (.scatter { k with
        op := k.op.withStreams [index] (otherStreams table (params.zip k.arrays))
          (iotaElements index.name (iotaParams table (params.zip k.arrays)))
        arrays := (otherStreams table (params.zip k.arrays)).map Prod.snd })] := by
  unfold inlineScatterIotas at h
  split at h
  · rename_i k launched
    split at h
    · rename_i index params given
      dsimp only at h
      split at h
      · cases h
      · rename_i fits
        cases h
        simp only [Bool.or_eq_true, not_or, decide_eq_true_eq, ne_eq, Decidable.not_not, List.isEmpty_iff] at fits
        exact ⟨k, index, params, launched, given, fits.1, fits.2, rfl, rfl⟩
    · cases h
  · cases h

theorem inlineChunkIotas_steady (h : inlineChunkIotas table stm names = none) (names' : NameSupply) :
    inlineChunkIotas table stm names' = none := by
  unfold inlineChunkIotas at h ⊢
  split at h
  · split at h
    · dsimp only at h ⊢
      split at h
      · rw [if_pos ‹_›]
      · cases h
    · rfl
  · rfl

theorem inlineScanIotas_steady (h : inlineScanIotas table stm names = none) (names' : NameSupply) :
    inlineScanIotas table stm names' = none := by
  unfold inlineScanIotas at h ⊢
  split at h
  · split at h
    · dsimp only at h ⊢
      split at h
      · rw [if_pos ‹_›]
      · cases h
    · rfl
  · rfl

theorem inlineScatterIotas_steady (h : inlineScatterIotas table stm names = none) (names' : NameSupply) :
    inlineScatterIotas table stm names' = none := by
  unfold inlineScatterIotas at h ⊢
  split at h
  · split at h
    · dsimp only at h ⊢
      split at h
      · rw [if_pos ‹_›]
      · cases h
    · rfl
  · rfl

end ArrayKernels
