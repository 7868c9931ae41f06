import ArrayKernels.Program.Same
import ArrayKernels.Proofs.RuleCases

/-! The weight of code. Code inside a body weighs twice, so that it gets lighter when it leaves; and an
input, an output or a streamed array weighs more than the statements that a rule puts in its place. A
sweep therefore never makes code heavier, and whatever it does besides resolving copies makes it lighter. -/
namespace ArrayKernels

mutual

def Exp.weight : Exp → Nat
  | .branch _ onTrue onFalse _ => 2 * (onTrue.weight + onFalse.weight)
  | .loop _ _ _ _ body => 2 * body.weight
  | .launch kernel => kernel.weight
  | _ => 0

def stmsWeight : List Stm → Nat
  | [] => 0
  | ⟨_, _, exp⟩ :: stms => 1 + exp.weight + stmsWeight stms

def Body.weight : Body → Nat
  | ⟨stms, _⟩ => stmsWeight stms

def Lambda.weight : Lambda → Nat
  | ⟨_, body, _⟩ => body.weight

/-- A rule puts at most three statements into a body for one of the counted things. -/
def Kernel.weight : Kernel → Nat
  | .map ⟨_, _, _, _, inputs, returns, body⟩ => 7 * (inputs.length + returns.length) + 2 * body.weight
  | .scan ⟨_, _, _, combine, fold, _, arrays⟩ => 7 * arrays.length + 2 * (combine.weight + fold.weight)
  | .chunked ⟨_, _, _, _, op, arrays⟩ => 7 * arrays.length + 2 * op.weight
  | .scatter ⟨_, _, op, arrays, _⟩ => 7 * arrays.length + 2 * op.weight
  | .group ⟨_, _, _, _, body⟩ => body.weight
  | .numGroups => 0
  | .groupSize => 0

def GroupStm.weight : GroupStm → Nat
  | .split .. => 1
  | .thread _ _ body => 1 + 2 * body.weight
  | .reduce _ _ op _ => 1 + 2 * op.weight

def groupStmsWeight : List GroupStm → Nat
  | [] => 0
  | stm :: stms => stm.weight + groupStmsWeight stms

def GroupBody.weight : GroupBody → Nat
  | ⟨stms, _⟩ => groupStmsWeight stms

end

def Stm.weight (stm : Stm) : Nat := 1 + stm.exp.weight

theorem Body.weight_eq (body : Body) : body.weight = stmsWeight body.stms := by cases body; rw [Body.weight]

theorem Lambda.weight_eq (op : Lambda) : op.weight = op.body.weight := by cases op; rw [Lambda.weight]

namespace Kernel

theorem weight_map (k : MapKernel) :
    (map k).weight = 7 * (k.inputs.length + k.returns.length) + 2 * k.body.weight := by cases k; rw [weight]

theorem weight_scan (k : ScanKernel) :
    (scan k).weight = 7 * k.arrays.length + 2 * (k.combine.weight + k.fold.weight) := by cases k; rw [weight]

theorem weight_chunked (k : ChunkedKernel) : (chunked k).weight = 7 * k.arrays.length + 2 * k.op.weight := by cases k; rw [weight]

theorem weight_scatter (k : ScatterKernel) : (scatter k).weight = 7 * k.arrays.length + 2 * k.op.weight := by cases k; rw [weight]

theorem weight_group (k : GroupKernel) : (group k).weight = k.body.weight := by cases k; rw [weight]

end Kernel

theorem stmsWeight_cons (stm : Stm) (stms : List Stm) : stmsWeight (stm :: stms) = stm.weight + stmsWeight stms := by
  obtain ⟨pat, certs, exp⟩ := stm
  rw [stmsWeight, Stm.weight]

theorem stmsWeight_append (before after : List Stm) : stmsWeight (before ++ after) = stmsWeight before + stmsWeight after := by
  induction before with
  | nil => simp [stmsWeight]
  | cons stm before ih => rw [List.cons_append, stmsWeight_cons, stmsWeight_cons, ih]; omega

theorem eq_nil_of_stmsWeight {stms : List Stm} (h : stmsWeight stms = 0) : stms = [] := by
  cases stms with
  | nil => rfl
  | cons stm stms =>
    rw [stmsWeight_cons, Stm.weight] at h
    omega

/-- Statements without bodies weigh one each. -/
theorem stmsWeight_leaves {stms : List Stm} (leaf : ∀ stm ∈ stms, stm.exp.weight = 0) : stmsWeight stms = stms.length := by
  induction stms with
  | nil => rfl
  | cons stm stms ih =>
    rw [stmsWeight_cons, Stm.weight, leaf stm List.mem_cons_self, ih fun s mem => leaf s (List.mem_cons_of_mem _ mem),
      List.length_cons]
    omega

theorem length_eq_of_sameAll {α : Type} {eq : α → α → Bool} {as bs : List α} (h : sameAll eq as bs = true) :
    as.length = bs.length := by
  induction as generalizing bs with
  | nil => cases bs <;> simp_all [sameAll]
  | cons a as ih =>
    cases bs with
    | nil => simp [sameAll] at h
    | cons b bs =>
      simp only [sameAll, Bool.and_eq_true] at h
      rw [List.length_cons, List.length_cons, ih h.2]

/-! Equal code has equal weights -/

mutual

theorem Exp.weight_same : ∀ e e' : Exp, e.same e' = true → e.weight = e'.weight
  | .branch _ t f _, e', h => by
    cases e' <;> simp only [Exp.same, Bool.and_eq_true, Bool.false_eq_true] at h
    obtain ⟨⟨⟨_, onTrue⟩, onFalse⟩, _⟩ := h
    simp only [Exp.weight, t.weight_same _ onTrue, f.weight_same _ onFalse]
  | .loop _ _ _ _ body, e', h => by
    cases e' <;> simp only [Exp.same, Bool.and_eq_true, Bool.false_eq_true] at h
    simp only [Exp.weight, body.weight_same _ h.2]
  | .launch k, e', h => by
    cases e' <;> simp only [Exp.same, Bool.false_eq_true] at h
    simp only [Exp.weight, k.weight_same _ h]
  | .operand _, e', h | .binary .., e', h | .compare .., e', h | .index .., e', h | .update .., e', h | .iota .., e', h
  | .replicate .., e', h | .reshape .., e', h | .rearrange .., e', h | .copy _, e', h | .alloc .., e', h => by
    cases e' <;> simp only [Exp.same, Bool.false_eq_true] at h <;> rfl

theorem stmsWeight_same : ∀ stms stms' : List Stm, sameStms stms stms' = true → stmsWeight stms = stmsWeight stms'
  | [], [], _ => rfl
  | [], _ :: _, h => by simp [sameStms] at h
  | _ :: _, [], h => by simp [sameStms] at h
  | ⟨_, _, e⟩ :: stms, ⟨_, _, e'⟩ :: stms', h => by
    simp only [sameStms, Stm.same, Bool.and_eq_true] at h
    rw [stmsWeight, stmsWeight, e.weight_same e' h.1.2, stmsWeight_same stms stms' h.2]

theorem Body.weight_same : ∀ b b' : Body, b.same b' = true → b.weight = b'.weight
  | ⟨stms, _⟩, ⟨stms', _⟩, h => by
    simp only [Body.same, Bool.and_eq_true] at h
    exact stmsWeight_same stms stms' h.1

theorem Lambda.weight_same : ∀ op op' : Lambda, op.same op' = true → op.weight = op'.weight
  | ⟨_, body, _⟩, ⟨_, body', _⟩, h => by
    simp only [Lambda.same, Bool.and_eq_true] at h
    exact body.weight_same body' h.1.2

theorem Kernel.weight_same : ∀ k k' : Kernel, k.same k' = true → k.weight = k'.weight
  | .map ⟨_, _, _, _, _, _, body⟩, k', h => by
    cases k' with
    | map k' =>
      cases k'
      simp only [Kernel.same, Bool.and_eq_true] at h
      obtain ⟨⟨⟨_, inputs⟩, returns⟩, inner⟩ := h
      simp only [Kernel.weight, length_eq_of_sameAll inputs, length_eq_of_sameAll returns, body.weight_same _ inner]
    | _ => simp [Kernel.same] at h
  | .scan ⟨_, _, _, combine, fold, _, _⟩, k', h => by
    cases k' with
    | scan k' =>
      cases k'
      simp only [Kernel.same, Bool.and_eq_true, beq_iff_eq] at h
      obtain ⟨⟨⟨⟨_, first⟩, second⟩, _⟩, arrays⟩ := h
      simp only [Kernel.weight, combine.weight_same _ first, fold.weight_same _ second, arrays]
    | _ => simp [Kernel.same] at h
  | .chunked ⟨_, _, _, _, op, _⟩, k', h => by
    cases k' with
    | chunked k' =>
      cases k'
      simp only [Kernel.same, Bool.and_eq_true, beq_iff_eq] at h
      obtain ⟨⟨_, inner⟩, arrays⟩ := h
      simp only [Kernel.weight, op.weight_same _ inner, arrays]
    | _ => simp [Kernel.same] at h
  | .scatter ⟨_, _, op, _, _⟩, k', h => by
    cases k' with
    | scatter k' =>
      cases k'
      simp only [Kernel.same, Bool.and_eq_true, beq_iff_eq] at h
      obtain ⟨⟨⟨_, inner⟩, arrays⟩, _⟩ := h
      simp only [Kernel.weight, op.weight_same _ inner, arrays]
    | _ => simp [Kernel.same] at h
  | .group ⟨_, _, _, _, body⟩, k', h => by
    cases k' with
    | group k' =>
      cases k'
      simp only [Kernel.same, Bool.and_eq_true] at h
      simp only [Kernel.weight, body.weight_same _ h.2]
    | _ => simp [Kernel.same] at h
  | .numGroups, k', h | .groupSize, k', h => by
    cases k' <;> simp only [Kernel.same, Bool.false_eq_true] at h <;> rfl

theorem GroupStm.weight_same : ∀ stm stm' : GroupStm, stm.same stm' = true → stm.weight = stm'.weight
  | .split .., stm', h => by
    cases stm' <;> simp only [GroupStm.same, Bool.false_eq_true] at h
    rfl
  | .thread _ _ body, stm', h => by
    cases stm' <;> simp only [GroupStm.same, Bool.and_eq_true, Bool.false_eq_true] at h
    simp only [GroupStm.weight, body.weight_same _ h.2]
  | .reduce _ _ op _, stm', h => by
    cases stm' <;> simp only [GroupStm.same, Bool.and_eq_true, Bool.false_eq_true] at h
    simp only [GroupStm.weight, op.weight_same _ h.1.2]

theorem groupStmsWeight_same : ∀ stms stms' : List GroupStm, sameGroupStms stms stms' = true →
    groupStmsWeight stms = groupStmsWeight stms'
  | [], [], _ => rfl
  | [], _ :: _, h => by simp [sameGroupStms] at h
  | _ :: _, [], h => by simp [sameGroupStms] at h
  | stm :: stms, stm' :: stms', h => by
    simp only [sameGroupStms, Bool.and_eq_true] at h
    rw [groupStmsWeight, groupStmsWeight, stm.weight_same stm' h.1, groupStmsWeight_same stms stms' h.2]

theorem GroupBody.weight_same : ∀ b b' : GroupBody, b.same b' = true → b.weight = b'.weight
  | ⟨stms, _⟩, ⟨stms', _⟩, h => by
    simp only [GroupBody.same, Bool.and_eq_true] at h
    exact groupStmsWeight_same stms stms' h.1

end

/-! Rules -/

/-- A rule that makes code lighter when it applies, and that applies whatever the supply is. -/
structure Lightens (rule : Stm → NameSupply → Option (List Stm × NameSupply)) : Prop where
  lighter : ∀ {stm names new names'}, rule stm names = some (new, names') → stmsWeight new < stm.weight
  steady : ∀ {stm names}, rule stm names = none → ∀ names', rule stm names' = none

/-- The first of some rules that applies. -/
theorem Lightens.first {α : Type} {rules : List α} {apply : α → Stm → NameSupply → Option (List Stm × NameSupply)}
    (h : ∀ rule ∈ rules, Lightens (apply rule)) : Lightens fun stm names => rules.findSome? fun rule => apply rule stm names where
  lighter applied := by
    obtain ⟨rule, mem, applied⟩ := List.exists_of_findSome?_eq_some applied
    exact (h rule mem).lighter applied
  steady declined names' := by
    rw [List.findSome?_eq_none_iff] at declined ⊢
    exact fun rule mem => (h rule mem).steady (declined rule mem) names'

theorem Exp.weight_leaf {e : Exp} (leaf : e.isNested = false) : e.weight = 0 := by
  cases e <;> first | rfl | cases leaf

theorem stmsWeight_withKernel (stm : Stm) (k : Kernel) : stmsWeight [stm.withKernel k] = 1 + k.weight := by
  rw [stmsWeight_cons, stmsWeight]
  rfl

theorem Stm.weight_launch {stm : Stm} {k : Kernel} (launched : stm.exp = .launch k) : stm.weight = 1 + k.weight := by
  rw [Stm.weight, launched, Exp.weight]

theorem dropUnusedInputs_lightens (table : SymbolTable) : Lightens (dropUnusedInputs table) where
  lighter applied := by
    obtain ⟨k, launched, fewer, rfl, _⟩ := dropUnusedInputs_eq_some applied
    rw [stmsWeight_withKernel, Stm.weight_launch launched, Kernel.weight_map, Kernel.weight_map]
    dsimp only
    omega
  steady := dropUnusedInputs_steady

theorem inlineInput_weight {table : SymbolTable} {consumed : Bool} {input : MapInput} {names names' : NameSupply}
    {stms : List Stm} (h : inlineInput table consumed input names = some (stms, names')) : stmsWeight stms ≤ 2 := by
  obtain ⟨d, e, _, _, leaf, _, rfl, _⟩ | ⟨_, _, _, _, _, _, rfl, _⟩ := inlineInput_eq_some h
  · simp [stmsWeight, Stm.single, Exp.weight_leaf leaf]
  · simp [stmsWeight, Stm.single, Stm.ofWord, Exp.weight]

theorem inlineEach_weight {table : SymbolTable} {consumed : NameSet} {inputs kept : List MapInput} {names names' : NameSupply}
    {stms : List Stm} (h : inlineEach table consumed inputs names = (stms, kept, names')) :
    stmsWeight stms + 2 * kept.length ≤ 2 * inputs.length := by
  induction inputs generalizing names stms kept names' with
  | nil =>
    cases h
    simp [stmsWeight]
  | cons input inputs ih =>
    rw [inlineEach] at h
    split at h
    · rename_i new left inlined
      rcases made : inlineEach table consumed inputs left with ⟨rest, others, final⟩
      have light := inlineInput_weight inlined
      have lighter := ih made
      rw [made] at h
      cases h
      rw [stmsWeight_append, List.length_cons]
      omega
    · rcases made : inlineEach table consumed inputs names with ⟨rest, others, final⟩
      have lighter := ih made
      rw [made] at h
      cases h
      rw [List.length_cons, List.length_cons]
      omega

theorem inlineInputs_lightens (table : SymbolTable) : Lightens (inlineInputs table) where
  lighter applied := by
    obtain ⟨k, prelude, kept, launched, made, some, rfl⟩ := inlineInputs_eq_some applied
    have light := inlineEach_weight made
    have heavy : 0 < stmsWeight prelude := Nat.pos_of_ne_zero fun zero => some (eq_nil_of_stmsWeight zero)
    rw [stmsWeight_withKernel, Stm.weight_launch launched, Kernel.weight_map, Kernel.weight_map, Body.weight_eq,
      stmsWeight_append, ← Body.weight_eq k.body]
    dsimp only
    omega
  steady := inlineInputs_steady

theorem count_unflagged (flags : List Bool) : (flags.map (!·)).count true + flags.count true = flags.length := by
  induction flags with
  | nil => rfl
  | cons flag flags ih => cases flag <;> simp <;> omega

theorem replicateOutputs_weight {stm : Stm} {k : MapKernel} {outputs : List (Binder × (Ty × List Nat) × Operand)}
    {names names' : NameSupply} {stms : List Stm} (h : replicateOutputs stm k outputs names = (stms, names')) :
    stmsWeight stms = 2 * outputs.length := by
  induction outputs generalizing names stms names' with
  | nil =>
    cases h
    rfl
  | cons output outputs ih =>
    obtain ⟨b, ⟨ty, perm⟩, value⟩ := output
    rcases made : replicateOutputs stm k outputs (names.fresh (b.name.base ++ "_flat")).2 with ⟨rest, final⟩
    simp only [replicateOutputs, made] at h
    cases h
    simp only [stmsWeight, Exp.weight, ih made, List.length_cons]
    omega

theorem weight_keepOutputs (flags : List Bool) (stm : Stm) (k : MapKernel) :
    (keepOutputs flags stm k).weight = 1 + 7 * (k.inputs.length + (pick flags k.returns).length) + 2 * k.body.weight := by
  simp only [keepOutputs, Stm.weight, Exp.weight, Kernel.weight_map, Body.weight_eq]
  omega

theorem hoistInvariantOutputs_lightens (table : SymbolTable) : Lightens (hoistInvariantOutputs table) where
  lighter {stm names new names'} applied := by
    obtain ⟨k, stms, launched, flagged, some, _, made, moved⟩ := hoistInvariantOutputs_eq_some applied
    have one := List.count_pos_iff.mpr some
    have matched := flagged.returns
    have kept := count_unflagged (invariantFlags table k)
    have few : (movedOutputs table stm k).length ≤ (invariantFlags table k).count true := by
      rw [movedOutputs, List.length_zip, length_pick flagged.values]
      exact Nat.min_le_left _ _
    rw [Stm.weight_launch launched, Kernel.weight_map]
    obtain ⟨rfl, _⟩ | rfl := moved
    · rw [replicateOutputs_weight made]
      omega
    · rw [stmsWeight_append, replicateOutputs_weight made, stmsWeight_cons, stmsWeight, weight_keepOutputs,
        length_pick (by rw [List.length_map, matched])]
      omega
  steady := hoistInvariantOutputs_steady

theorem dropDeadOutputs_lightens (table : SymbolTable) (usage : Usage) : Lightens (dropDeadOutputs table usage) where
  lighter {stm names new names'} applied := by
    obtain ⟨k, launched, flagged, dead, _, kept⟩ := dropDeadOutputs_eq_some applied
    have matched := flagged.returns
    have fewer : (usedFlags usage stm).count true < (usedFlags usage stm).length := by
      refine Nat.lt_of_le_of_ne List.count_le_length fun all => ?_
      cases List.count_eq_length.mp all false dead
    rw [Stm.weight_launch launched, Kernel.weight_map]
    obtain ⟨rfl, _⟩ | rfl := kept
    · rw [stmsWeight]
      omega
    · rw [stmsWeight_cons, stmsWeight, weight_keepOutputs, length_pick matched]
      omega
  steady := dropDeadOutputs_steady

theorem length_iotaParams (table : SymbolTable) (streams : List (Binder × Name)) :
    (iotaParams table streams).length + (otherStreams table streams).length = streams.length := by
  induction streams with
  | nil => rfl
  | cons stream streams ih =>
    cases counted : countsFrom table stream.2 <;> simp [iotaParams, otherStreams, counted] at ih ⊢ <;> omega

theorem iotaElements_weight (position : Name) (fused : List (Binder × Operand)) :
    stmsWeight (iotaElements position fused) = fused.length := by
  rw [stmsWeight_leaves, iotaElements, List.length_map]
  intro stm mem
  obtain ⟨_, _, rfl⟩ := List.mem_map.mp mem
  rfl

theorem iotaChunks_weight {thread count : Name} {size : LaunchSize} {division : Division} {fused : List (Binder × Operand)}
    {names names' : NameSupply} {stms : List Stm} (h : iotaChunks thread count size division fused names = (stms, names')) :
    stmsWeight stms ≤ 3 * fused.length := by
  induction fused generalizing names stms names' with
  | nil =>
    cases h
    simp [stmsWeight]
  | cons f fused ih =>
    obtain ⟨param, x⟩ := f
    cases division with
    | strided =>
      rcases made : iotaChunks thread count size .strided fused (names.fresh "iota_start").2 with ⟨rest, final⟩
      simp only [iotaChunks, made] at h
      cases h
      have lighter := ih made
      simp only [stmsWeight, Stm.ofWord, Stm.single, Exp.weight, List.length_cons]
      omega
    | contiguous =>
      rcases made : iotaChunks thread count size .contiguous fused ((names.fresh "iota_start").2.fresh "iota_offset").2
        with ⟨rest, final⟩
      simp only [iotaChunks, made] at h
      cases h
      have lighter := ih made
      simp only [stmsWeight, Stm.ofWord, Stm.single, Exp.weight, List.length_cons]
      omega

theorem Lambda.weight_withStreams (op : Lambda) (leading : List Binder) (streams : List (Binder × Name)) (before : List Stm) :
    (op.withStreams leading streams before).weight = stmsWeight before + op.weight := by
  rw [Lambda.weight_eq, Lambda.weight_eq, Body.weight_eq, Body.weight_eq]
  exact stmsWeight_append _ _

/-- The streamed arrays that stay are fewer by those that are computed instead. -/
theorem length_otherStreams {table : SymbolTable} {params : List Binder} {arrays : List Name}
    (matched : params.length = arrays.length) (some : iotaParams table (params.zip arrays) ≠ []) :
    0 < (iotaParams table (params.zip arrays)).length ∧
      (iotaParams table (params.zip arrays)).length + (otherStreams table (params.zip arrays)).length = arrays.length := by
  refine ⟨List.length_pos_iff.mpr some, ?_⟩
  rw [length_iotaParams, List.length_zip, matched, Nat.min_self]

theorem inlineChunkIotas_lightens (table : SymbolTable) : Lightens (inlineChunkIotas table) where
  lighter applied := by
    obtain ⟨k, _, _, params, before, launched, _, matched, some, made, rfl⟩ := inlineChunkIotas_eq_some applied
    have light := iotaChunks_weight made
    have fewer := length_otherStreams matched some
    rw [stmsWeight_withKernel, Stm.weight_launch launched, Kernel.weight_chunked, Kernel.weight_chunked,
      Lambda.weight_withStreams, List.length_map]
    omega
  steady := inlineChunkIotas_steady

theorem inlineScanIotas_lightens (table : SymbolTable) : Lightens (inlineScanIotas table) where
  lighter applied := by
    obtain ⟨k, _, params, _, launched, _, matched, rfl, some, _, rfl⟩ := inlineScanIotas_eq_some applied
    have fewer := length_otherStreams (by rw [List.length_drop]; omega) some
    rw [stmsWeight_withKernel, Stm.weight_launch launched, Kernel.weight_scan, Kernel.weight_scan,
      Lambda.weight_withStreams, List.length_map, iotaElements_weight]
    dsimp only
    omega
  steady := inlineScanIotas_steady

theorem inlineScatterIotas_lightens (table : SymbolTable) : Lightens (inlineScatterIotas table) where
  lighter applied := by
    obtain ⟨k, _, params, launched, _, matched, some, _, rfl⟩ := inlineScatterIotas_eq_some applied
    have fewer := length_otherStreams matched some
    rw [stmsWeight_withKernel, Stm.weight_launch launched, Kernel.weight_scatter, Kernel.weight_scatter,
      Lambda.weight_withStreams, List.length_map, iotaElements_weight]
    omega
  steady := inlineScatterIotas_steady

namespace RuleSet

/-- Rules that make code lighter. -/
structure Lightening (rules : RuleSet) : Prop where
  down : ∀ table, Lightens (rules.replaceDown table)
  up : ∀ table usage, Lightens (rules.replaceUp table usage)

theorem standard_lightening : standard.Lightening where
  down table := by
    refine Lightens.first fun rule mem => ?_
    simp only [standard, List.mem_cons, List.not_mem_nil, or_false] at mem
    rcases mem with rfl | rfl | rfl | rfl | rfl | rfl
    · exact dropUnusedInputs_lightens table
    · exact inlineInputs_lightens table
    · exact hoistInvariantOutputs_lightens table
    · exact inlineChunkIotas_lightens table
    · exact inlineScanIotas_lightens table
    · exact inlineScatterIotas_lightens table
  up table usage := by
    refine Lightens.first fun rule mem => ?_
    simp only [standard, List.mem_cons, List.not_mem_nil, or_false] at mem
    subst mem
    exact dropDeadOutputs_lightens table usage

end RuleSet

end ArrayKernels
