import ArrayKernels.Proofs.CopyChains
import ArrayKernels.Proofs.Coverage
import ArrayKernels.Proofs.KernelPorts
import ArrayKernels.Proofs.SweepEnds

/-! Code in the order of its names. In a program that binds names before it mentions them, a copy is of a name that comes earlier, and
so is a value that is replicated. What the rules put in the place of a statement keeps to this order, although they bind the inputs of
a kernel to values from outside and move values out of it. The order is that of a rank of the names. A name that a rule draws may have
any rank, as it is never bound to a copy. -/
namespace ArrayKernels

section
variable (rank : Name → Nat)

/-- Bound to `v`, the expression is no copy of a higher name, and it replicates nothing above `hi`. -/
def Exp.Descends (v : Name) (hi : Nat) : Exp → Prop
  | .operand (.var w) => rank w < rank v
  | .replicate _ (.var w) => rank w < hi
  | _ => True

def Stm.Descends (hi : Nat) (stm : Stm) : Prop := ∀ b, stm.pat = ⟨[], [b]⟩ → stm.exp.Descends rank b.name hi

def SymbolTable.Descends (lo : Nat) (t : SymbolTable) : Prop := ∀ v e, t.defn v = some e → e.Descends rank v lo

/-- The inputs of a map kernel at `lo` are named from there on, and its results are from before or from inside. -/
def Kernel.Placed (lo : Nat) : Kernel → Prop
  | .map k => (∀ i ∈ k.inputs, lo ≤ rank i.param.name) ∧
    ∀ v, .var v ∈ k.body.result → v ∈ k.body.bound ++ k.threadNames ∨ rank v < lo
  | _ => True

def Exp.Placed (lo : Nat) : Exp → Prop
  | .launch k => k.Placed rank lo
  | _ => True

/-- A statement without bodies. -/
structure Stm.Simple (lo : Nat) (stm : Stm) : Prop where
  leaf : stm.exp.isNested = false
  descends : stm.Descends rank lo

end

mutual

/-- The statements keep to the order of the names, between the ranks `lo` and `hi`. -/
inductive InOrder (rank : Name → Nat) : Nat → Nat → List Stm → Prop where
  | nil {lo : Nat} : InOrder rank lo lo []
  | cons {lo mid hi : Nat} {stm : Stm} {stms : List Stm} (le : lo ≤ mid) (descends : stm.Descends rank mid)
    (placed : stm.exp.Placed rank lo) (nested : ∀ b ∈ stm.exp.bodies, Encased rank lo mid b) (rest : InOrder rank mid hi stms) :
    InOrder rank lo hi (stm :: stms)

/-- The statements of the body keep to the order, somewhere between the two ranks. -/
inductive Encased (rank : Name → Nat) : Nat → Nat → Body → Prop where
  | mk {lo first last hi : Nat} {body : Body} (low : lo ≤ first) (inside : InOrder rank first last body.stms) (high : last ≤ hi) :
    Encased rank lo hi body

end

section
variable {rank : Name → Nat} {lo mid hi lo' hi' : Nat}

theorem Exp.Descends.mono {v : Name} {e : Exp} (h : e.Descends rank v lo) (le : lo ≤ lo') : e.Descends rank v lo' := by
  unfold Exp.Descends at h ⊢
  split
  · exact h
  · exact Nat.lt_of_lt_of_le h le
  · trivial

theorem Stm.Descends.mono {stm : Stm} (h : stm.Descends rank lo) (le : lo ≤ lo') : stm.Descends rank lo' :=
  fun b sole => (h b sole).mono le

theorem Stm.Simple.mono {stm : Stm} (h : stm.Simple rank lo) (le : lo ≤ lo') : stm.Simple rank lo' := ⟨h.leaf, h.descends.mono le⟩

theorem Stm.simple_single {v : Name} {ty : Ty} {e : Exp} (leaf : e.isNested = false) (h : e.Descends rank v lo) :
    (Stm.single v ty e).Simple rank lo := by
  refine ⟨leaf, fun b sole => ?_⟩
  cases sole
  exact h

namespace SymbolTable.Descends

variable {t t' : SymbolTable}

theorem falls (h : t.Descends rank lo) : t.Falls rank := fun v _ copied => h v _ (copyOf_eq_some.mp copied)

theorem opens (h : t.Descends rank lo) (more : t.Opens t') : t'.Descends rank lo := fun v e defined => h v e (more.defn defined)

theorem mono (h : t.Descends rank lo) (le : lo ≤ lo') : t.Descends rank lo' := fun v e defined => (h v e defined).mono le

theorem bindStm (h : t.Descends rank lo) {stm : Stm} (descends : stm.Descends rank lo) : (t.bindStm stm).Descends rank lo := by
  intro v e defined
  obtain ⟨⟨b, sole, rfl⟩, rfl⟩ | ⟨_, old⟩ := defn_bindStm defined
  · exact descends b sole
  · exact h v e old

end SymbolTable.Descends

/-- Statements without bodies in front. -/
theorem InOrder.leads {lead stms : List Stm} (simple : ∀ stm ∈ lead, stm.Simple rank lo) (h : InOrder rank lo hi stms) :
    InOrder rank lo hi (lead ++ stms) := by
  induction lead with
  | nil => exact h
  | cons stm lead ih =>
    obtain ⟨first, others⟩ := List.forall_mem_cons.mp simple
    refine .cons (Nat.le_refl lo) first.descends ?_ ?_ (ih others)
    · unfold Exp.Placed
      split
      · rename_i launched
        have leaf := first.leaf
        rw [launched] at leaf
        cases leaf
      · trivial
    · rw [Exp.bodies_leaf first.leaf]
      exact fun _ mem => absurd mem List.not_mem_nil

end

/-! What the rules make of a kernel -/

section
variable (rank : Name → Nat) (lo : Nat)

/-- The second body has statements without bodies in front. -/
def Body.Extends (b b' : Body) : Prop := ∃ lead, (∀ stm ∈ lead, Stm.Simple rank lo stm) ∧ b'.stms = lead ++ b.stms

/-- The statements take the place of a launch of the kernel: they have no bodies, but for a kernel at the end that has fewer ports,
and the same bodies with statements in front. -/
inductive Supplants (k : Kernel) : List Stm → Prop where
  | leaves {lead : List Stm} (simple : ∀ stm ∈ lead, stm.Simple rank lo) (some : 0 < k.ownPorts) : Supplants k lead
  | kernel {lead : List Stm} {stm : Stm} {k' : Kernel} (simple : ∀ stm ∈ lead, stm.Simple rank lo) (launched : stm.exp = .launch k')
    (fewer : k'.ownPorts < k.ownPorts) (bodies : List.Forall₂ (Body.Extends rank lo) k.bodies k'.bodies) (placed : k'.Placed rank lo) :
    Supplants k (lead ++ [stm])

end

section
variable {rank : Name → Nat} {lo mid hi : Nat} {k : Kernel} {new : List Stm}

theorem Body.extends_self (b : Body) : b.Extends rank lo b := ⟨[], fun _ mem => absurd mem List.not_mem_nil, rfl⟩

theorem portsInStms_simple {lead : List Stm} (simple : ∀ stm ∈ lead, stm.Simple rank lo) : portsInStms lead = 0 := by
  induction lead with
  | nil => rfl
  | cons stm lead ih =>
    obtain ⟨first, others⟩ := List.forall_mem_cons.mp simple
    rw [portsInStms_cons, Exp.ports_leaf first.leaf, ih others]

theorem Stm.Simple.depth_le {stm : Stm} (h : stm.Simple rank lo) (d : Nat) : stm.exp.depth ≤ d := by
  rw [Exp.depth_le_iff, Exp.bodies_leaf h.leaf]
  exact fun _ mem => absurd mem List.not_mem_nil

theorem Body.Extends.ports {b b' : Body} (h : b.Extends rank lo b') : b'.ports = b.ports := by
  obtain ⟨lead, simple, same⟩ := h
  rw [Body.ports_eq, same, portsInStms_append, portsInStms_simple simple, Nat.zero_add, ← Body.ports_eq]

theorem Body.Extends.depth_le {b b' : Body} (h : b.Extends rank lo b') {d : Nat} (shallow : b.depth ≤ d) : b'.depth ≤ d := by
  obtain ⟨lead, simple, same⟩ := h
  obtain ⟨d, rfl⟩ : ∃ n, d = n + 1 := ⟨d - 1, by rw [Body.depth_eq] at shallow; omega⟩
  rw [Body.depth_eq, Nat.add_le_add_iff_right, stmsDepth_le_iff] at shallow ⊢
  rw [same, List.forall_mem_append]
  exact ⟨fun stm mem => (simple stm mem).depth_le d, shallow⟩

theorem Body.Extends.encased {b b' : Body} (h : b.Extends rank lo b') (inside : Encased rank lo hi b) : Encased rank lo hi b' := by
  obtain ⟨lead, simple, same⟩ := h
  cases inside with
  | mk low inside high => exact .mk low (same ▸ inside.leads fun stm mem => (simple stm mem).mono low) high

theorem portsInBodies_extends {bs bs' : List Body} (h : List.Forall₂ (Body.Extends rank lo) bs bs') :
    portsInBodies bs' = portsInBodies bs := by
  induction h with
  | nil => rfl
  | cons head _ ih => rw [portsInBodies_cons, portsInBodies_cons, head.ports, ih]

namespace Supplants

theorem ports (h : Supplants rank lo k new) : portsInStms new < k.ports := by
  rw [k.ports_eq]
  cases h with
  | leaves simple some =>
    rw [portsInStms_simple simple]
    omega
  | kernel simple launched fewer bodies placed =>
    rw [portsInStms_append, portsInStms_simple simple, portsInStms_cons, launched, portsInStms, Exp.ports, Kernel.ports_eq,
      portsInBodies_extends bodies]
    omega

theorem depth_le (h : Supplants rank lo k new) {d : Nat} (shallow : k.depth ≤ d) : ∀ stm ∈ new, stm.exp.depth ≤ d := by
  cases h with
  | leaves simple _ => exact fun stm mem => (simple stm mem).depth_le d
  | kernel simple launched fewer bodies placed =>
    rw [List.forall_mem_append, List.forall_mem_singleton, launched, Exp.depth, Kernel.depth_le_iff]
    refine ⟨fun stm mem => (simple stm mem).depth_le d, fun b' mem => ?_⟩
    obtain ⟨b, among, extended⟩ := exists_of_mem_right bodies mem
    exact extended.depth_le (Kernel.depth_le_iff.mp shallow b among)

/-- What comes after the kernel comes after what takes its place. -/
theorem inOrder (h : Supplants rank lo k new) (le : lo ≤ mid) (nested : ∀ b ∈ k.bodies, Encased rank lo mid b) {queue : List Stm}
    (rest : InOrder rank mid hi queue) : ∃ lo', lo ≤ lo' ∧ InOrder rank lo' hi (new ++ queue) := by
  cases h with
  | leaves simple _ => exact ⟨mid, le, rest.leads fun stm mem => (simple stm mem).mono le⟩
  | @kernel lead stm k' simple launched fewer bodies placed =>
    rw [List.append_assoc, List.singleton_append]
    refine ⟨lo, Nat.le_refl lo, InOrder.leads simple (.cons le (fun b sole => ?_) ?_ ?_ rest)⟩
    · rw [launched]
      trivial
    · rw [launched]
      exact placed
    · rw [launched]
      intro b' mem
      obtain ⟨b, among, extended⟩ := exists_of_mem_right bodies mem
      exact extended.encased (nested b among)

end Supplants

end

section
variable {rank : Name → Nat} {lo : Nat} {table : SymbolTable} {stm : Stm} {names names' : NameSupply} {new : List Stm}

theorem Exp.replacements_launch (k : Kernel) : (Exp.launch k).replacements = k.ownPorts := by cases k <;> rfl

/-- A kernel in the place of a kernel. -/
theorem Supplants.withKernel {k k' : Kernel} (launched : stm.exp = .launch k)
    (fewer : replacementsIn [stm.withKernel k'] < stm.exp.replacements) (bodies : List.Forall₂ (Body.Extends rank lo) k.bodies k'.bodies)
    (placed : k'.Placed rank lo) : Supplants rank lo k [stm.withKernel k'] := by
  rw [replacementsIn_withKernel, launched, Exp.replacements_launch, Exp.replacements_launch] at fewer
  exact @Supplants.kernel rank lo k [] _ k' (fun _ mem => absurd mem List.not_mem_nil) rfl fewer bodies placed

/-- A result is free in the body, or bound in it. -/
theorem Body.mem_bound_or_free {body : Body} {v : Name} (mem : .var v ∈ body.result) : v ∈ body.bound ∨ v ∈ body.free := by
  obtain ⟨stms, result⟩ := body
  have all : Encloses (fun v => v ∈ boundInStms stms ∨ v ∈ freeBefore (freeOperands result) stms)
      (freeBefore (freeOperands result) stms) (boundInStms stms) := ⟨fun _ => .inr, fun _ => .inl⟩
  exact all.after v (NameSet.mem_gather.mpr ⟨.var v, mem, NameSet.mem_singleton.mpr rfl⟩)

/-- The names of a thread with other inputs. -/
theorem MapKernel.mem_threadNames {k : MapKernel} {v : Name} :
    v ∈ k.threadNames ↔ v ∈ k.thread :: k.space.map Prod.fst ∨ ∃ i ∈ k.inputs, i.param.name = v := by
  rw [threadNames, List.cons_append, ← List.cons_append, List.mem_append, List.mem_map]

theorem dropUnusedInputs_supplants (placed : stm.exp.Placed rank lo) (h : dropUnusedInputs table stm names = some (new, names')) :
    ∃ k, stm.exp = .launch k ∧ Supplants rank lo k new := by
  have fewer := dropUnusedInputs_fewer h
  obtain ⟨k, launched, _, rfl, _⟩ := dropUnusedInputs_eq_some h
  rw [launched] at placed
  obtain ⟨inputs, results⟩ := placed
  refine ⟨.map k, launched, .withKernel launched fewer (.cons (Body.extends_self _) .nil) ⟨fun i mem => ?_, fun v result => ?_⟩⟩
  · exact inputs i (List.mem_of_mem_filter mem)
  · refine (results v result).imp_left fun inside => ?_
    rw [List.mem_append, MapKernel.mem_threadNames] at inside ⊢
    obtain bound | place | ⟨i, mem, rfl⟩ := inside
    · exact .inl bound
    · exact .inr (.inl place)
    · -- an input that is a result is mentioned by the body
      refine (Body.mem_bound_or_free result).imp id fun free => .inr ⟨i, ?_, rfl⟩
      exact List.mem_filter.mpr ⟨mem, decide_eq_true free⟩

/-- An input is bound to a value that its array replicates, to elements of it, or to what is computed. -/
theorem inlineInput_simple (down : table.Descends rank lo) {consumed : Bool} {input : MapInput} (after : lo ≤ rank input.param.name)
    {stms : List Stm} (h : inlineInput table consumed input names = some (stms, names')) :
    (∀ stm ∈ stms, stm.Simple rank lo) ∧ input.param.name ∈ boundInStms stms := by
  unfold inlineInput at h
  dsimp only at h
  have one {e : Exp} (leaf : e.isNested = false) (descends : e.Descends rank input.param.name lo) :
      (∀ stm ∈ [Stm.single input.param.name input.param.ty e], stm.Simple rank lo) ∧
        input.param.name ∈ boundInStms [Stm.single input.param.name input.param.ty e] := by
    refine ⟨fun stm mem => ?_, List.mem_append_left _ (List.mem_append_left _ List.mem_cons_self)⟩
    obtain rfl := List.mem_singleton.mp mem
    exact Stm.simple_single leaf descends
  split at h
  · split at h <;> cases h
    exact one rfl trivial
  · split at h <;> cases h
    exact one rfl trivial
  · split at h
    · cases h
      refine ⟨List.forall_mem_cons.mpr ⟨Stm.simple_single rfl trivial, List.forall_mem_singleton.mpr (Stm.simple_single rfl trivial)⟩, ?_⟩
      exact List.mem_append_right _ (List.mem_append_left _ (List.mem_append_left _ List.mem_cons_self))
    · cases h
  · rename_i shape value defined
    have low := down _ _ defined
    split at h
    · split at h <;> cases h
      refine one rfl ?_
      cases value with
      | const c => trivial
      | var w => exact Nat.lt_of_lt_of_le low after
    · split at h <;> cases h
      refine one rfl ?_
      cases value with
      | const c => trivial
      | var w => exact low
  · cases h

theorem inlineEach_simple (down : table.Descends rank lo) {consumed : NameSet} {inputs kept : List MapInput}
    (after : ∀ i ∈ inputs, lo ≤ rank i.param.name) {stms : List Stm} (h : inlineEach table consumed inputs names = (stms, kept, names')) :
    (∀ stm ∈ stms, stm.Simple rank lo) ∧ (∀ i ∈ kept, i ∈ inputs) ∧ ∀ i ∈ inputs, i ∈ kept ∨ i.param.name ∈ boundInStms stms := by
  induction inputs generalizing names stms kept names' with
  | nil =>
    cases h
    exact ⟨fun _ mem => absurd mem List.not_mem_nil, fun _ mem => mem, fun _ mem => absurd mem List.not_mem_nil⟩
  | cons input inputs ih =>
    obtain ⟨first, others⟩ := List.forall_mem_cons.mp after
    rw [inlineEach] at h
    split at h
    · rename_i made left inlined
      rcases rest : inlineEach table consumed inputs left with ⟨prelude, others', last⟩
      rw [rest] at h
      cases h
      obtain ⟨simple, among, covered⟩ := ih others rest
      obtain ⟨simple', bound⟩ := inlineInput_simple down first inlined
      refine ⟨List.forall_mem_append.mpr ⟨simple', simple⟩, fun i mem => List.mem_cons_of_mem _ (among i mem), ?_⟩
      rw [boundInStms_append]
      refine List.forall_mem_cons.mpr ⟨.inr (List.mem_append_left _ bound), fun i mem => ?_⟩
      exact (covered i mem).imp_right fun inside => List.mem_append_right _ inside
    · rcases rest : inlineEach table consumed inputs names with ⟨prelude, others', last⟩
      rw [rest] at h
      cases h
      obtain ⟨simple, among, covered⟩ := ih others rest
      refine ⟨simple, fun i mem => ?_, List.forall_mem_cons.mpr ⟨.inl List.mem_cons_self, fun i mem => ?_⟩⟩
      · exact (List.mem_cons.mp mem).elim (fun here => here ▸ List.mem_cons_self) fun later => List.mem_cons_of_mem _ (among i later)
      · exact (covered i mem).imp_left fun inside => List.mem_cons_of_mem _ inside

theorem inlineInputs_supplants (down : table.Descends rank lo) (placed : stm.exp.Placed rank lo)
    (h : inlineInputs table stm names = some (new, names')) : ∃ k, stm.exp = .launch k ∧ Supplants rank lo k new := by
  have fewer := inlineInputs_fewer h
  obtain ⟨k, prelude, kept, launched, made, _, rfl⟩ := inlineInputs_eq_some h
  rw [launched] at placed
  obtain ⟨inputs, results⟩ := placed
  obtain ⟨simple, among, covered⟩ := inlineEach_simple down inputs made
  refine ⟨.map k, launched, .withKernel launched fewer (.cons ⟨prelude, simple, rfl⟩ .nil) ⟨fun i mem => inputs i (among i mem), ?_⟩⟩
  intro v result
  refine (results v result).imp_left fun inside => ?_
  have whole : Body.bound ⟨prelude ++ k.body.stms, k.body.result⟩ = boundInStms prelude ++ k.body.bound := by
    rw [Body.bound, boundInStms_append, Body.bound_eq]
  rw [List.mem_append, MapKernel.mem_threadNames] at inside ⊢
  simp only [whole, List.mem_append]
  obtain bound | place | ⟨i, mem, rfl⟩ := inside
  · exact .inl (.inr bound)
  · exact .inr (.inl place)
  · exact (covered i mem).elim (fun stays => .inr (.inr ⟨i, stays, rfl⟩)) fun moved => .inl (.inl moved)

theorem replicateOutputs_simple {k : MapKernel} {outputs : List (Binder × (Ty × List Nat) × Operand)} {stms : List Stm}
    (low : ∀ o ∈ outputs, ∀ v, o.2.2 = .var v → rank v < lo) (h : replicateOutputs stm k outputs names = (stms, names')) :
    ∀ stm ∈ stms, stm.Simple rank lo := by
  induction outputs generalizing names stms names' with
  | nil =>
    cases h
    exact fun _ mem => absurd mem List.not_mem_nil
  | cons output outputs ih =>
    obtain ⟨b, ⟨ty, perm⟩, value⟩ := output
    obtain ⟨first, others⟩ := List.forall_mem_cons.mp low
    rcases rest : replicateOutputs stm k outputs (names.fresh (b.name.base ++ "_flat")).2 with ⟨more, final⟩
    simp only [replicateOutputs, rest] at h
    cases h
    refine List.forall_mem_cons.mpr ⟨⟨rfl, fun b sole => ?_⟩, List.forall_mem_cons.mpr ⟨⟨rfl, fun _ _ => trivial⟩, ih others rest⟩⟩
    cases value with
    | const c => trivial
    | var v => exact first v rfl

theorem hoistInvariantOutputs_supplants (placed : stm.exp.Placed rank lo)
    (h : hoistInvariantOutputs table stm names = some (new, names')) : ∃ k, stm.exp = .launch k ∧ Supplants rank lo k new := by
  have fewer := hoistInvariantOutputs_fewer h
  obtain ⟨k, stms, launched, flagged, some, _, made, moved⟩ := hoistInvariantOutputs_eq_some h
  rw [launched] at placed
  obtain ⟨inputs, results⟩ := placed
  have simple : ∀ stm ∈ stms, stm.Simple rank lo := by
    refine replicateOutputs_simple (fun o mem v value => ?_) made
    have picked := (List.of_mem_zip (List.of_mem_zip mem).2).2
    rw [value, invariantFlags, pick_map, List.mem_filter] at picked
    obtain ⟨result, invariant⟩ := picked
    simp only [invariantResult, Bool.and_eq_true, decide_eq_true_eq] at invariant
    exact (results v result).resolve_left invariant.2
  rw [launched, Exp.replacements_launch] at fewer
  refine ⟨.map k, launched, ?_⟩
  obtain ⟨rfl, _⟩ | rfl := moved
  · exact .leaves simple (Nat.zero_lt_of_lt fewer)
  · refine .kernel simple rfl ?_ (.cons ⟨[], fun _ mem => absurd mem List.not_mem_nil, rfl⟩ .nil) ⟨inputs, fun v result => ?_⟩
    · rw [replacementsIn_append] at fewer
      exact Nat.lt_of_le_of_lt (Nat.le_add_left _ _) fewer
    · have before := results v ((pick_sublist _ _).subset result)
      rw [Body.bound_eq] at before ⊢
      exact before

theorem iotaElements_simple (position : Name) (fused : List (Binder × Operand)) : ∀ stm ∈ iotaElements position fused, stm.Simple rank lo := by
  intro stm mem
  obtain ⟨f, _, rfl⟩ := List.mem_map.mp mem
  exact Stm.simple_single rfl trivial

theorem iotaChunks_simple {thread count : Name} {size : LaunchSize} {division : Division} {fused : List (Binder × Operand)}
    {stms : List Stm} (h : iotaChunks thread count size division fused names = (stms, names')) : ∀ stm ∈ stms, stm.Simple rank lo := by
  induction fused generalizing names stms names' with
  | nil =>
    cases h
    exact fun _ mem => absurd mem List.not_mem_nil
  | cons f fused ih =>
    cases division with
    | strided =>
      cases h
      exact List.forall_mem_cons.mpr ⟨Stm.simple_single rfl trivial, List.forall_mem_cons.mpr ⟨Stm.simple_single rfl trivial, ih rfl⟩⟩
    | contiguous =>
      cases h
      exact List.forall_mem_cons.mpr ⟨Stm.simple_single rfl trivial, List.forall_mem_cons.mpr ⟨Stm.simple_single rfl trivial,
        List.forall_mem_cons.mpr ⟨Stm.simple_single rfl trivial, ih rfl⟩⟩⟩

theorem inlineChunkIotas_supplants (h : inlineChunkIotas table stm names = some (new, names')) :
    ∃ k, stm.exp = .launch k ∧ Supplants rank lo k new := by
  have fewer := inlineChunkIotas_fewer h
  obtain ⟨k, thread, count, params, before, launched, _, _, _, made, rfl⟩ := inlineChunkIotas_eq_some h
  exact ⟨.chunked k, launched, .withKernel launched fewer (.cons ⟨before, iotaChunks_simple made, rfl⟩ .nil) trivial⟩

theorem inlineScanIotas_supplants (h : inlineScanIotas table stm names = some (new, names')) :
    ∃ k, stm.exp = .launch k ∧ Supplants rank lo k new := by
  have fewer := inlineScanIotas_fewer h
  obtain ⟨k, index, params, streams, launched, _, _, _, _, _, rfl⟩ := inlineScanIotas_eq_some h
  refine ⟨.scan k, launched, .withKernel launched fewer (.cons (Body.extends_self _) (.cons ?_ .nil)) trivial⟩
  exact ⟨_, iotaElements_simple index.name (iotaParams table streams), rfl⟩

theorem inlineScatterIotas_supplants (h : inlineScatterIotas table stm names = some (new, names')) :
    ∃ k, stm.exp = .launch k ∧ Supplants rank lo k new := by
  have fewer := inlineScatterIotas_fewer h
  obtain ⟨k, index, params, launched, _, _, _, _, rfl⟩ := inlineScatterIotas_eq_some h
  refine ⟨.scatter k, launched, .withKernel launched fewer (.cons ?_ .nil) trivial⟩
  exact ⟨_, iotaElements_simple index.name (iotaParams table (params.zip k.arrays)), rfl⟩

/-- The standard rules keep to the order and take ports away. -/
theorem RuleSet.standard_supplants (down : table.Descends rank lo) (placed : stm.exp.Placed rank lo)
    (h : standard.replaceDown table stm names = some (new, names')) : ∃ k, stm.exp = .launch k ∧ Supplants rank lo k new := by
  obtain ⟨rule, mem, applied⟩ := List.exists_of_findSome?_eq_some h
  simp only [standard, List.mem_cons, List.not_mem_nil, or_false] at mem
  rcases mem with rfl | rfl | rfl | rfl | rfl | rfl
  · exact dropUnusedInputs_supplants placed applied
  · exact inlineInputs_supplants down placed applied
  · exact hoistInvariantOutputs_supplants placed applied
  · exact inlineChunkIotas_supplants applied
  · exact inlineScanIotas_supplants applied
  · exact inlineScatterIotas_supplants applied

end

/-! Programs that bind names before they mention them -/

/-- Among the names that are bound, those of the body follow on names, if any, that it mentions and that are not free. -/
def Body.StandsIn (bound : List Name) (free : NameSet) (body : Body) : Prop :=
  ∃ before after, bound = before ++ body.bound ++ after ∧ ∀ v ∈ body.free, v ∈ free ∨ v ∈ before

section
variable {b : Body} {v : Name}

theorem Body.standsIn_self (b : Body) : b.StandsIn b.bound b.free := ⟨[], [], by simp, fun _ => .inl⟩

section
variable {bound : List Name} {free free' : NameSet} (h : b.StandsIn bound free)
include h

theorem Body.StandsIn.behind (own : List Name) (covers : ∀ v ∈ free, v ∈ free' ∨ v ∈ own) : b.StandsIn (own ++ bound) free' := by
  obtain ⟨first, last, rfl, covered⟩ := h
  refine ⟨own ++ first, last, by simp only [List.append_assoc], fun v mem => ?_⟩
  rcases covered v mem with outside | inside
  · exact (covers v outside).imp_right fun mem => List.mem_append_left _ mem
  · exact .inr (List.mem_append_right _ inside)

theorem Body.StandsIn.before (after : List Name) (covers : ∀ v ∈ free, v ∈ free') : b.StandsIn (bound ++ after) free' := by
  obtain ⟨first, last, rfl, covered⟩ := h
  exact ⟨first, last ++ after, by simp only [List.append_assoc], fun v mem => (covered v mem).imp_left (covers v)⟩

end

theorem Lambda.standsIn (op : Lambda) : op.body.StandsIn op.bound op.free := by
  obtain ⟨params, body, ret⟩ := op
  refine body.standsIn_self.behind _ fun v mem => ?_
  simp only [Lambda.free, NameSet.mem_union, NameSet.mem_without]
  grind

theorem GroupStm.standsIn {stm : GroupStm} (mem : b ∈ stm.bodies) : b.StandsIn stm.bound stm.free := by
  cases stm with
  | split => cases mem
  | thread pat only body =>
    obtain rfl := List.mem_singleton.mp mem
    refine b.standsIn_self.behind _ fun v mem => .inl ?_
    exact NameSet.mem_union.mpr (.inr mem)
  | reduce pat width op inputs =>
    obtain rfl := List.mem_singleton.mp mem
    refine op.standsIn.behind _ fun v mem => .inl ?_
    exact NameSet.mem_union.mpr (.inl (NameSet.mem_union.mpr (.inr mem)))

theorem standsIn_groupStms (after : NameSet) {stms : List GroupStm} (mem : b ∈ stms.flatMap GroupStm.bodies) :
    b.StandsIn (boundInGroupStms stms) (freeBeforeGroup after stms) := by
  induction stms with
  | nil => cases mem
  | cons stm stms ih =>
    rw [List.flatMap_cons, List.mem_append] at mem
    rcases mem with here | later
    · refine (GroupStm.standsIn here).before _ fun v mem => ?_
      exact NameSet.mem_union.mpr (.inr mem)
    · refine (ih later).behind _ fun v mem => ?_
      simp only [freeBeforeGroup, NameSet.mem_union, NameSet.mem_without, GroupStm.bound_eq, List.mem_append]
      grind

theorem Kernel.standsIn {k : Kernel} (mem : b ∈ k.bodies) : b.StandsIn k.bound k.free := by
  cases k with
  | map k =>
    obtain rfl := List.mem_singleton.mp mem
    obtain ⟨certs, width, thread, space, inputs, returns, body⟩ := k
    refine body.standsIn_self.behind _ fun v mem => ?_
    simp only [Kernel.free, NameSet.mem_union, NameSet.mem_without]
    grind
  | scan k =>
    obtain ⟨certs, width, size, combine, fold, neutral, arrays⟩ := k
    simp only [bodies, List.mem_cons, List.not_mem_nil, or_false] at mem
    rcases mem with rfl | rfl
    · refine combine.standsIn.before _ fun v mem => ?_
      simp only [Kernel.free, NameSet.mem_union, mem, or_true, true_or]
    · refine fold.standsIn.behind _ fun v mem => .inl ?_
      simp only [Kernel.free, NameSet.mem_union, mem, or_true, true_or]
  | chunked k =>
    obtain rfl := List.mem_singleton.mp mem
    obtain ⟨certs, width, size, division, op, arrays⟩ := k
    refine op.standsIn.behind [] fun v mem => .inl ?_
    simp only [Kernel.free, NameSet.mem_union, mem, or_true, true_or]
  | scatter k =>
    obtain rfl := List.mem_singleton.mp mem
    obtain ⟨certs, width, op, arrays, dests⟩ := k
    refine op.standsIn.behind [] fun v mem => .inl ?_
    simp only [Kernel.free, NameSet.mem_union, mem, or_true, true_or]
  | group k =>
    obtain ⟨certs, size, space, returns, stms, result⟩ := k
    refine (standsIn_groupStms (NameSet.gather GroupResult.free result) mem).behind _ fun v mem => ?_
    simp only [Kernel.free, GroupBody.free, NameSet.mem_union, NameSet.mem_without]
    grind
  | numGroups => cases mem
  | groupSize => cases mem

theorem Exp.standsIn {e : Exp} (mem : b ∈ e.bodies) : b.StandsIn e.bound e.free := by
  cases e with
  | branch cond onTrue onFalse ret =>
    simp only [bodies, List.mem_cons, List.not_mem_nil, or_false] at mem
    rcases mem with rfl | rfl
    · refine b.standsIn_self.before _ fun v mem => ?_
      simp only [Exp.free, NameSet.mem_union, mem, or_true, true_or]
    · refine b.standsIn_self.behind _ fun v mem => .inl ?_
      simp only [Exp.free, NameSet.mem_union, mem, or_true, true_or]
  | loop context values index bound body =>
    obtain rfl := List.mem_singleton.mp mem
    refine b.standsIn_self.behind _ fun v mem => ?_
    simp only [Exp.free, NameSet.mem_union, NameSet.mem_without]
    grind
  | launch k => exact Kernel.standsIn mem
  | operand | binary | compare | index | update | iota | replicate | reshape | rearrange | copy | alloc => cases mem

end

section
variable {pre rest : List Name} {v : Name}

theorem idxOf_lt_length (mem : v ∈ pre) : (pre ++ rest).idxOf v < pre.length := by
  rw [List.idxOf_append_of_mem mem]
  exact List.idxOf_lt_length_of_mem mem

theorem length_le_idxOf (distinct : (pre ++ rest).Nodup) (mem : v ∈ rest) : pre.length ≤ (pre ++ rest).idxOf v := by
  have other : v ∉ pre := fun before => (List.nodup_append.mp distinct).2.2 v before v mem rfl
  rw [List.idxOf_append_of_notMem other]
  exact Nat.le_add_right _ _

/-- An expression behind the names that it mentions. -/
theorem Exp.placed_idxOf {e : Exp} (distinct : (pre ++ rest).Nodup) (closed : ∀ v ∈ e.free, v ∈ pre) (bound : ∀ v ∈ e.bound, v ∈ rest) :
    e.Placed (pre ++ rest).idxOf pre.length := by
  unfold Exp.Placed
  split
  · rename_i k
    unfold Kernel.Placed
    split
    · rename_i k
      obtain ⟨certs, width, thread, space, inputs, returns, body⟩ := k
      refine ⟨fun i mem => length_le_idxOf distinct (bound _ ?_), fun v result => ?_⟩
      · exact List.mem_append_left _ (List.mem_append_right _ (List.mem_map_of_mem mem))
      · rw [List.mem_append]
        rcases Body.mem_bound_or_free result with inside | free
        · exact .inl (.inl inside)
        · by_cases own : v ∈ thread :: space.map Prod.fst ++ inputs.map fun i => i.param.name
          · exact .inl (.inr own)
          · refine .inr (idxOf_lt_length (closed v ?_))
            exact NameSet.mem_union.mpr (.inr (NameSet.mem_without.mpr ⟨NameSet.mem_union.mpr (.inl (NameSet.mem_union.mpr (.inl free))), own⟩))
    · trivial
  · trivial

theorem Exp.descends_idxOf {e : Exp} (distinct : (pre ++ rest).Nodup) (closed : ∀ v ∈ e.free, v ∈ pre) (mem : v ∈ rest) :
    e.Descends (pre ++ rest).idxOf v pre.length := by
  unfold Exp.Descends
  split
  · rename_i w
    exact Nat.lt_of_lt_of_le (idxOf_lt_length (closed w (NameSet.mem_singleton.mpr rfl))) (length_le_idxOf distinct mem)
  · rename_i w
    exact idxOf_lt_length (closed w (NameSet.mem_union.mpr (.inr (NameSet.mem_singleton.mpr rfl))))
  · trivial

/-- Statements behind the names that they mention, if the same holds of their bodies. -/
theorem inOrder_stms {order : List Name} (distinct : order.Nodup) {d : Nat}
    (bodies : ∀ (b : Body) (pre post : List Name), b.depth ≤ d → order = pre ++ b.bound ++ post → (∀ v ∈ b.free, v ∈ pre) →
      InOrder order.idxOf pre.length (pre ++ b.bound).length b.stms)
    {stms : List Stm} {after : NameSet} {pre post : List Name} (shallow : ∀ stm ∈ stms, stm.exp.depth ≤ d)
    (split : order = pre ++ boundInStms stms ++ post) (closed : ∀ v ∈ freeBefore after stms, v ∈ pre) :
    InOrder order.idxOf pre.length (pre ++ boundInStms stms).length stms := by
  induction stms generalizing pre with
  | nil =>
    rw [boundInStms, List.append_nil]
    exact .nil
  | cons stm stms ih =>
    obtain ⟨pat, certs, exp⟩ := stm
    obtain ⟨first, others⟩ := List.forall_mem_cons.mp shallow
    have inside : ∀ v ∈ exp.free, v ∈ pre := fun v mem => closed v (NameSet.mem_union.mpr (.inr (NameSet.mem_union.mpr (.inr mem))))
    have front : order = pre ++ (pat.names ++ exp.bound ++ boundInStms stms ++ post) := by
      rw [split, boundInStms]
      simp only [List.append_assoc]
    have next : order = pre ++ (pat.names ++ exp.bound) ++ boundInStms stms ++ post := by
      rw [front]
      simp only [List.append_assoc]
    have tail : InOrder order.idxOf (pre ++ (pat.names ++ exp.bound)).length (pre ++ boundInStms (⟨pat, certs, exp⟩ :: stms)).length stms := by
      have rest := ih others next fun v mem => ?_
      · rwa [List.append_assoc, ← boundInStms] at rest
      · rw [List.mem_append, List.mem_append]
        by_cases own : v ∈ pat.names
        · exact .inr (.inl own)
        · exact .inl (closed v (NameSet.mem_union.mpr (.inl (NameSet.mem_without.mpr ⟨mem, own⟩))))
    have grows : pre.length ≤ (pre ++ (pat.names ++ exp.bound)).length := by
      rw [List.length_append]
      exact Nat.le_add_right _ _
    refine .cons grows (fun b sole => ?_) ?_ (fun b mem => ?_) tail
    · have own : b.name ∈ pat.names := by
        replace sole : pat = ⟨[], [b]⟩ := sole
        rw [sole]
        exact List.mem_cons_self
      have descends : exp.Descends order.idxOf b.name pre.length := by
        rw [front]
        exact Exp.descends_idxOf (front ▸ distinct) inside (by simp [own])
      exact descends.mono grows
    · rw [front]
      exact Exp.placed_idxOf (front ▸ distinct) inside fun v mem => by simp [mem]
    · obtain ⟨before, behind, bound, covered⟩ := Exp.standsIn mem
      have place : order = (pre ++ pat.names ++ before) ++ b.bound ++ (behind ++ boundInStms stms ++ post) := by
        rw [front, bound]
        simp only [List.append_assoc]
      refine .mk ?_ (bodies b _ _ (Exp.depth_le_iff.mp first b mem) place fun v mem => ?_) ?_
      · simp only [List.length_append]
        omega
      · rcases covered v mem with free | earlier
        · exact List.mem_append_left _ (List.mem_append_left _ (inside v free))
        · exact List.mem_append_right _ earlier
      · simp only [bound, List.length_append]
        omega

/-- A body behind the names that it mentions. -/
theorem Body.inOrder {order : List Name} (distinct : order.Nodup) {body : Body} {pre post : List Name}
    (split : order = pre ++ body.bound ++ post) (closed : ∀ v ∈ body.free, v ∈ pre) :
    InOrder order.idxOf pre.length (pre ++ body.bound).length body.stms := by
  have all (d : Nat) : ∀ (b : Body) (pre post : List Name), b.depth ≤ d → order = pre ++ b.bound ++ post → (∀ v ∈ b.free, v ∈ pre) →
      InOrder order.idxOf pre.length (pre ++ b.bound).length b.stms := by
    induction d with
    | zero =>
      intro b _ _ shallow
      rw [Body.depth_eq] at shallow
      omega
    | succ d ih =>
      rintro ⟨stms, result⟩ pre post shallow split closed
      rw [Body.depth, Nat.add_le_add_iff_right, stmsDepth_le_iff] at shallow
      exact inOrder_stms distinct ih shallow split closed
  exact all body.depth body pre post (Nat.le_refl _) split closed

end

end ArrayKernels
