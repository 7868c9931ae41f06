import ArrayKernels.Proofs.AllocAccount

/-! Expanding an expanded program. Code out of which nothing is lifted is settled: expansion reports what
it reported and changes nothing. Expanded code is settled if no allocation in it has a size that is itself
a block; for then a size that is bound in the code before is bound in it still.

The allocations that stay are code like the rest, so that one that is placed in a lifted block is itself
rebased, and is reported by its new placement from then on. -/
namespace ArrayKernels

/-- Nothing is lifted out of the code. -/
structure ThreadCode.Settled (c : ThreadCode) : Prop where
  whole : c.lifted = []
  placed : ∃ place, c.place? = some place

def ExpandState.report (s : ExpandState) (found : List Diagnostic) : ExpandState := ⟨s.names, s.diagnostics ++ found⟩

theorem ExpandState.report_nil (s : ExpandState) : s.report [] = s := by rw [report, List.append_nil]

theorem ExpandState.report_append (s : ExpandState) (found more : List Diagnostic) :
    s.report (found ++ more) = (s.report found).report more := by
  rw [report, ← List.append_assoc]
  rfl

/-! Settled code stays -/

section
variable {inside : List Name}

mutual

theorem Exp.withoutLifted_eq : ∀ e : Exp, liftedSites inside e.allocSites = [] → e.withoutLifted inside = e
  | .operand _, _ | .binary .., _ | .compare .., _ | .index .., _ | .update .., _ | .iota .., _ | .replicate .., _
  | .reshape .., _ | .rearrange .., _ | .copy _, _ | .alloc .., _ | .launch _, _ => rfl
  | .branch cond onTrue onFalse ret, whole => by
    rw [Exp.allocSites, liftedSites_append, List.append_eq_nil_iff] at whole
    rw [Exp.withoutLifted, onTrue.withoutLifted_eq whole.1, onFalse.withoutLifted_eq whole.2]
  | .loop context values index bound body, whole => by
    rw [Exp.withoutLifted, body.withoutLifted_eq whole]

theorem stmsWithoutLifted_eq : ∀ stms : List Stm, liftedSites inside (allocSitesIn stms) = [] → stmsWithoutLifted inside stms = stms
  | [], _ => rfl
  | ⟨pat, certs, e⟩ :: stms, whole => by
    rw [allocSitesIn, liftedSites_append, liftedSites_append, List.append_eq_nil_iff, List.append_eq_nil_iff] at whole
    obtain ⟨⟨here, inner⟩, later⟩ := whole
    rw [stmsWithoutLifted, stmsWithoutLifted_eq stms later]
    split
    · rename_i a site
      rw [site, Option.toList_some] at here
      split
      · rfl
      · rename_i invariant
        rw [liftedSites_invariant invariant] at here
        cases here
    · rw [e.withoutLifted_eq inner]

theorem Body.withoutLifted_eq : ∀ body : Body, liftedSites inside body.allocSites = [] → body.withoutLifted inside = body
  | ⟨stms, result⟩, whole => by rw [Body.withoutLifted, stmsWithoutLifted_eq stms whole]

end

theorem GroupStm.withoutLifted_eq (stm : GroupStm) (whole : liftedSites inside stm.allocSites = []) : stm.withoutLifted inside = stm := by
  cases stm with
  | split => rfl
  | thread pat only body => rw [GroupStm.withoutLifted, body.withoutLifted_eq whole]
  | reduce pat width op inputs =>
    rw [GroupStm.withoutLifted, op.body.withoutLifted_eq whole]
    cases op
    rfl

end

section
variable {options : ExpandOptions}

theorem ThreadCode.Settled.liftSites_eq {c : ThreadCode} (settled : c.Settled) (lenient : options.strict = true → c.diagnostics = [])
    (label : String) (existentials : List Name) (s : ExpandState) :
    liftSites options label c.thread c.threads c.inside c.allocs existentials s = .ok (([], none), s.report c.diagnostics) := by
  obtain ⟨place, placed⟩ := settled.placed
  have whole : liftedSites c.inside c.allocs = [] := settled.whole
  refine liftSites_eq_ok_iff.mpr ⟨place, ThreadCode.place_eq_some.mp placed, lenient, .inl whole, ?_, ?_⟩
  · rw [whole]
    rfl
  · rw [whole]
    rfl

theorem Lambda.expand_settled (op : Lambda) (threads : Operand) (settled : ∀ c ∈ op.threadCodes threads, c.Settled)
    (lenient : options.strict = true → (op.threadCodes threads).flatMap ThreadCode.diagnostics = []) (label : String) (s : ExpandState) :
    op.expand options label threads s = .ok (([], op), s.report ((op.threadCodes threads).flatMap ThreadCode.diagnostics)) := by
  obtain ⟨params, body, ret⟩ := op
  cases params with
  | nil =>
    rw [threadCodes, List.flatMap_nil, s.report_nil]
    rfl
  | cons thread params =>
    let op : Lambda := ⟨thread :: params, body, ret⟩
    have settled : (op.threadCode threads thread.name).Settled := settled _ List.mem_cons_self
    have whole := settled.whole
    rw [ThreadCode.lifted, op.allocs_threadCode] at whole
    rw [threadCodes, List.flatMap_singleton] at lenient ⊢
    have lifts := settled.liftSites_eq lenient label body.existentials s
    rw [op.allocs_threadCode] at lifts
    refine Pass.bind_eq_ok.mpr ⟨_, _, lifts, Pass.pure_eq_ok.mpr ⟨?_, rfl⟩⟩
    dsimp only [Body.lifted]
    rw [map_lifted_none]
    exact congrArg (fun body => (([], ⟨thread :: params, body, ret⟩) : List Stm × Lambda)) (body.withoutLifted_eq whole)

theorem MapKernel.expand_settled (k : MapKernel) (settled : k.threadCode.Settled)
    (lenient : options.strict = true → k.threadCode.diagnostics = []) (s : ExpandState) :
    (Kernel.map k).expand options s = .ok (([], .map k), s.report k.threadCode.diagnostics) := by
  have whole := settled.whole
  rw [ThreadCode.lifted, k.allocs_threadCode] at whole
  have lifts := settled.liftSites_eq lenient (Kernel.map k).label k.body.existentials s
  rw [k.allocs_threadCode] at lifts
  refine Pass.bind_eq_ok.mpr ⟨_, _, lifts, Pass.pure_eq_ok.mpr ⟨?_, rfl⟩⟩
  have body : k.body.lifted k.threadCode.inside none = k.body := k.body.withoutLifted_eq whole
  have inputs : (k.inputs.map fun i => { i with param := i.param.lifted none }) = k.inputs := List.map_id _
  have same : { k with body := k.body.lifted k.threadCode.inside none
                       inputs := k.inputs.map fun i => { i with param := i.param.lifted none } } = k := by
    rw [body, inputs]
    cases k
    rfl
  exact congrArg (fun k => ([], Kernel.map k)) same

theorem GroupKernel.expand_settled (k : GroupKernel) (settled : k.threadCode.Settled)
    (lenient : options.strict = true → k.threadCode.diagnostics = []) (s : ExpandState) :
    (Kernel.group k).expand options s = .ok (([], .group k), s.report k.threadCode.diagnostics) := by
  have whole := settled.whole
  rw [ThreadCode.lifted, k.allocs_threadCode] at whole
  have lifts := settled.liftSites_eq lenient (Kernel.group k).label (k.body.stms.flatMap GroupStm.existentials) s
  rw [k.allocs_threadCode] at lifts
  refine Pass.bind_eq_ok.mpr ⟨_, _, lifts, Pass.pure_eq_ok.mpr ⟨?_, rfl⟩⟩
  have stms : k.body.stms.map (·.lifted k.threadCode.inside none) = k.body.stms := by
    refine (List.map_congr_left fun stm mem => ?_).trans (List.map_id _)
    refine stm.withoutLifted_eq (List.filter_eq_nil_iff.mpr fun a site => ?_)
    exact List.filter_eq_nil_iff.mp whole a (List.mem_flatMap.mpr ⟨stm, mem, site⟩)
  have same : { k with body := ⟨k.body.stms.map (·.lifted k.threadCode.inside none), k.body.result⟩ } = k := by
    rw [stms]
    obtain ⟨certs, size, space, returns, ⟨stms, result⟩⟩ := k
    rfl
  exact congrArg (fun k => ([], Kernel.group k)) same

theorem Kernel.expand_settled (k : Kernel) (settled : ∀ c ∈ k.threadCodes, c.Settled)
    (lenient : options.strict = true → k.diagnostics = []) (s : ExpandState) :
    k.expand options s = .ok (([], k), s.report k.diagnostics) := by
  cases k with
  | map k =>
    rw [diagnostics, threadCodes, List.flatMap_singleton] at lenient ⊢
    exact k.expand_settled (settled _ List.mem_cons_self) lenient s
  | group k =>
    rw [diagnostics, threadCodes, List.flatMap_singleton] at lenient ⊢
    exact k.expand_settled (settled _ List.mem_cons_self) lenient s
  | chunked k =>
    have expanded := k.op.expand_settled k.size.threads settled lenient (Kernel.chunked k).label s
    obtain ⟨certs, width, size, division, op, arrays⟩ := k
    exact Pass.bind_eq_ok.mpr ⟨_, _, expanded, rfl⟩
  | scan k =>
    rw [diagnostics, threadCodes, List.flatMap_append] at lenient ⊢
    have first := @Lambda.expand_settled options k.combine k.size.threads
      (fun c mem => settled c (List.mem_append_left _ mem)) (fun strict => (List.append_eq_nil_iff.mp (lenient strict)).1) (Kernel.scan k).label s
    have second := @Lambda.expand_settled options k.fold k.size.threads
      (fun c mem => settled c (List.mem_append_right _ mem)) (fun strict => (List.append_eq_nil_iff.mp (lenient strict)).2) (Kernel.scan k).label
    rw [s.report_append]
    obtain ⟨certs, width, size, combine, fold, neutral, arrays⟩ := k
    exact Pass.bind_eq_ok.mpr ⟨_, _, first, Pass.bind_eq_ok.mpr ⟨_, _, second _, rfl⟩⟩
  | scatter k | numGroups | groupSize =>
    exact congrArg (fun t => Except.ok (([], _), t)) s.report_nil.symm

/-- All kernels are settled, and in strict mode nothing stays in them. -/
structure LaunchesSettled (options : ExpandOptions) (ks : List Kernel) : Prop where
  settled : ∀ k ∈ ks, ∀ c ∈ k.threadCodes, c.Settled
  lenient : options.strict = true → ks.flatMap Kernel.diagnostics = []

theorem LaunchesSettled.of_append {ks more : List Kernel} (h : LaunchesSettled options (ks ++ more)) :
    LaunchesSettled options ks ∧ LaunchesSettled options more := by
  have lenient (strict : options.strict = true) := List.append_eq_nil_iff.mp (List.flatMap_append ▸ h.lenient strict)
  exact ⟨⟨fun k mem => h.settled k (List.mem_append_left _ mem), fun strict => (lenient strict).1⟩,
    ⟨fun k mem => h.settled k (List.mem_append_right _ mem), fun strict => (lenient strict).2⟩⟩

mutual

theorem Exp.expandHost_settled : ∀ (e : Exp) (s : ExpandState), LaunchesSettled options e.launches →
    e.expandHost options s = .ok (([], e), s.report (e.launches.flatMap Kernel.diagnostics))
  | .branch cond onTrue onFalse ret, s, h => by
    rw [Exp.launches_branch] at h ⊢
    obtain ⟨yes, no⟩ := h.of_append
    rw [List.flatMap_append, s.report_append]
    exact Pass.bind_eq_ok.mpr ⟨_, _, onTrue.expandHost_settled s yes, Pass.bind_eq_ok.mpr ⟨_, _, onFalse.expandHost_settled _ no, rfl⟩⟩
  | .loop context values index bound body, s, h => by
    rw [Exp.launches_loop] at h ⊢
    exact Pass.bind_eq_ok.mpr ⟨_, _, body.expandHost_settled s h, rfl⟩
  | .launch k, s, h => by
    have diagnostics : (Exp.launch k).launches.flatMap Kernel.diagnostics = k.diagnostics := List.flatMap_singleton ..
    rw [diagnostics]
    have expanded := k.expand_settled (h.settled k List.mem_cons_self) (fun strict => diagnostics ▸ h.lenient strict) s
    exact Pass.bind_eq_ok.mpr ⟨_, _, expanded, rfl⟩
  | .operand _, s, _ | .binary .., s, _ | .compare .., s, _ | .index .., s, _ | .update .., s, _ | .iota .., s, _ | .replicate .., s, _
  | .reshape .., s, _ | .rearrange .., s, _ | .copy _, s, _ | .alloc .., s, _ => by
    rw [Exp.launches_leaf rfl, List.flatMap_nil, s.report_nil]
    rfl

theorem expandHostStms_settled : ∀ (stms : List Stm) (s : ExpandState), LaunchesSettled options (launchesIn stms) →
    expandHostStms options stms s = .ok (stms, s.report ((launchesIn stms).flatMap Kernel.diagnostics))
  | [], s, _ => by
    rw [launchesIn, sitesIn, List.filterMap_nil, List.flatMap_nil, s.report_nil]
    rfl
  | ⟨pat, certs, e⟩ :: stms, s, h => by
    rw [launchesIn_cons] at h ⊢
    obtain ⟨here, later⟩ := h.of_append
    rw [List.flatMap_append, s.report_append]
    exact Pass.bind_eq_ok.mpr ⟨_, _, e.expandHost_settled s here, Pass.bind_eq_ok.mpr ⟨_, _, expandHostStms_settled stms _ later, rfl⟩⟩

theorem Body.expandHost_settled : ∀ (body : Body) (s : ExpandState), LaunchesSettled options body.launches →
    body.expandHost options s = .ok (body, s.report (body.launches.flatMap Kernel.diagnostics))
  | ⟨stms, _⟩, s, h => Pass.bind_eq_ok.mpr ⟨_, _, expandHostStms_settled stms s h, rfl⟩

end

theorem expandFuns_settled (funs : List FunDecl) (s : ExpandState) (h : LaunchesSettled options (funs.flatMap fun f => f.body.launches)) :
    expandFuns options funs s = .ok (funs, s.report ((funs.flatMap fun f => f.body.launches).flatMap Kernel.diagnostics)) := by
  induction funs generalizing s with
  | nil =>
    rw [List.flatMap_nil, List.flatMap_nil, s.report_nil]
    rfl
  | cons f funs ih =>
    rw [List.flatMap_cons] at h ⊢
    obtain ⟨here, later⟩ := h.of_append
    rw [expandFuns, f.body.expandHost_settled s here, List.flatMap_append, s.report_append]
    dsimp only
    rw [ih _ later]
    rfl

theorem Program.expand_settled (p : Program) (names : NameSupply) (h : LaunchesSettled options p.launches) :
    p.expand options names = .ok ⟨p, names, p.launches.flatMap Kernel.diagnostics⟩ := by
  rw [Program.expand, expandFuns_settled p.funs ⟨names, []⟩ h]
  rfl

end

/-! Expanded code is settled -/

theorem AllocSite.variantSize_eq_some {inside : List Name} {a : AllocSite} {v : Name} :
    a.variantSize inside = some v ↔ v ∈ inside ∧ a.size = .var v := by
  obtain ⟨block, size, space⟩ := a
  cases size with
  | const c => simp [variantSize, Operand.asName]
  | var w =>
    simp only [variantSize, Operand.asName, Option.filter_eq_some_iff, Option.some.injEq, decide_eq_true_eq, Operand.var.injEq]
    exact and_comm

theorem AllocSite.isVariant_iff {inside : List Name} {a : AllocSite} : a.isVariant inside = true ↔ ∃ v ∈ inside, a.size = .var v := by
  rw [isVariant, Option.isSome_iff_exists]
  simp only [variantSize_eq_some]

theorem filterMap_alloc_expanded (inside : List Name) (f : Binder → Binder) (sites : List CodeSite) :
    ((sites.filter (CodeSite.stays inside)).map (CodeSite.map f)).filterMap CodeSite.alloc? =
      ((sites.filterMap CodeSite.alloc?).filter (AllocSite.isVariant inside)).map fun a => { a with block := f a.block } := by
  induction sites with
  | nil => rfl
  | cons site sites ih =>
    cases site with
    | binder b => exact ih
    | launch k => exact ih
    | block a =>
      cases variant : a.isVariant inside with
      | true => simp [CodeSite.stays, CodeSite.alloc?, CodeSite.map, variant, ih]
      | false => simp [CodeSite.stays, CodeSite.alloc?, variant, ih]

/-- What stays is reported again if its size is still bound in the code. -/
theorem variantSites_expanded {inside inside' : List Name} {sites : List AllocSite} (f : Binder → Binder)
    (still : ∀ a ∈ sites, a.isVariant inside = true → a.isVariant inside' = true) :
    variantSites inside' ((sites.filter (AllocSite.isVariant inside)).map fun a => { a with block := f a.block }) =
      (variantSites inside sites).map fun d => { d with block := f d.block } := by
  induction sites with
  | nil => rfl
  | cons a sites ih =>
    have rest := ih fun b mem => still b (List.mem_cons_of_mem _ mem)
    cases here : a.variantSize inside with
    | none =>
      have gone : ¬ a.isVariant inside = true := by simp [AllocSite.isVariant, here]
      rw [List.filter_cons_of_neg gone, rest, variantSites, variantSites, List.filterMap_cons_none (by rw [here]; rfl)]
    | some v =>
      have variant : a.isVariant inside = true := by simp [AllocSite.isVariant, here]
      obtain ⟨bound, size⟩ := AllocSite.variantSize_eq_some.mp here
      obtain ⟨w, bound', size'⟩ := AllocSite.isVariant_iff.mp (still a List.mem_cons_self variant)
      obtain rfl : v = w := Operand.var.inj (size.symm.trans size')
      have there : AllocSite.variantSize inside' { a with block := f a.block } = some v :=
        AllocSite.variantSize_eq_some.mpr ⟨bound', size⟩
      rw [List.filter_cons_of_pos variant, List.map_cons]
      simp only [variantSites, List.filterMap_cons, here, there, Option.map_some, List.map_cons]
      exact congrArg (_ :: ·) rest

namespace ThreadCode

/-- No allocation in the code has a size that is itself a block allocated there. -/
def SizesApart (c : ThreadCode) : Prop := ∀ a ∈ c.allocs, ∀ b ∈ c.allocs, a.size.asName ≠ some b.name

instance (c : ThreadCode) : Decidable c.SizesApart :=
  inferInstanceAs (Decidable (∀ a ∈ c.allocs, ∀ b ∈ c.allocs, a.size.asName ≠ some b.name))

/-- The allocations that stay are reported by the placements that they get. -/
def movedDiagnostics (c : ThreadCode) (place : ThreadPlace) : List Diagnostic :=
  c.diagnostics.map fun d => { d with block := c.rebased place d.block }

variable {c c' : ThreadCode} {place : ThreadPlace}

theorem Expanded.allocs_eq (h : c.Expanded c' place) :
    c'.allocs = (c.allocs.filter (AllocSite.isVariant c.inside)).map fun a => { a with block := c.rebased place a.block } := by
  rw [allocs, h.sites, filterMap_alloc_expanded]
  rfl

theorem Expanded.variant (h : c.Expanded c' place) (apart : c.SizesApart) (a : AllocSite) (mem : a ∈ c.allocs)
    (variant : a.isVariant c.inside = true) : a.isVariant c'.inside = true := by
  obtain ⟨v, bound, size⟩ := AllocSite.isVariant_iff.mp variant
  have other : v ∉ c.blocks := by
    intro block
    obtain ⟨b, lifted, rfl⟩ := List.mem_map.mp block
    exact apart a mem b (mem_liftedSites.mp lifted).1 (size ▸ rfl)
  refine AllocSite.isVariant_iff.mpr ⟨v, List.count_pos_iff.mp ?_, size⟩
  have count := h.inside v
  rw [List.count_eq_zero.mpr other] at count
  have positive := List.count_pos_iff.mpr bound
  omega

theorem Expanded.settled (h : c.Expanded c' place) (placed : c.place? = some place) (apart : c.SizesApart) : c'.Settled := by
  constructor
  · refine List.filter_eq_nil_iff.mpr fun a mem => ?_
    rw [h.allocs_eq] at mem
    obtain ⟨b, old, rfl⟩ := List.mem_map.mp mem
    obtain ⟨site, variant⟩ := List.mem_filter.mp old
    have still := h.variant apart b site variant
    change ¬ (!b.isVariant c'.inside) = true
    simp [still]
  · refine ⟨place, ?_⟩
    rw [place?, h.thread, h.threads]
    exact placed

theorem Expanded.diagnostics_eq (h : c.Expanded c' place) (apart : c.SizesApart) : c'.diagnostics = c.movedDiagnostics place := by
  rw [diagnostics, h.allocs_eq]
  exact variantSites_expanded _ (h.variant apart)

end ThreadCode

/-! The whole program -/

def Program.threadCodes (p : Program) : List ThreadCode := p.launches.flatMap Kernel.threadCodes

theorem Program.diagnostics_eq (p : Program) : p.launches.flatMap Kernel.diagnostics = p.threadCodes.flatMap ThreadCode.diagnostics :=
  List.flatMap_assoc.symm

/-- The same report, but for the index function that places the block. -/
structure Diagnostic.Moved (d d' : Diagnostic) : Prop where
  size : d'.size = d.size
  block : d.block.Moved d'.block

/-- Each code is settled by now and reports what it did. -/
def Resettled : List ThreadCode → List ThreadCode → Prop :=
  List.Forall₂ fun c c' => c'.Settled ∧ ∃ place, c'.diagnostics = c.movedDiagnostics place

theorem Resettled.of_expanded {codes codes' : List ThreadCode}
    (h : List.Forall₂ ThreadCode.ExpandsTo codes codes') (apart : ∀ c ∈ codes, c.SizesApart) : Resettled codes codes' := by
  induction h with
  | nil => exact .nil
  | cons here _ ih =>
    obtain ⟨place, placed, expanded⟩ := here
    have first := apart _ List.mem_cons_self
    exact .cons ⟨expanded.settled placed first, place, expanded.diagnostics_eq first⟩ (ih fun c mem => apart c (List.mem_cons_of_mem _ mem))

theorem Steps.codes {options : ExpandOptions} {s t : ExpandState} {steps : List LaunchStep} (h : Steps options s steps t) :
    List.Forall₂ ThreadCode.ExpandsTo
      ((steps.map LaunchStep.kernel).flatMap Kernel.threadCodes) ((steps.map LaunchStep.expanded).flatMap Kernel.threadCodes) := by
  induction h with
  | nil s => exact .nil
  | cons here codes _ ih => exact List.rel_append codes.each ih

/-- In strict mode nothing stays in a kernel. -/
theorem Steps.lenient {options : ExpandOptions} {s t : ExpandState} {steps : List LaunchStep} (h : Steps options s steps t)
    (strict : options.strict = true) : (steps.flatMap fun step => step.kernel.diagnostics) = [] := by
  induction h with
  | nil s => rfl
  | cons here codes _ ih =>
    rw [List.flatMap_cons, ih, List.append_nil]
    exact codes.lenient strict

theorem ThreadCode.rebased_moved (c : ThreadCode) (place : ThreadPlace) (b : Binder) : b.Moved (c.rebased place b) :=
  c.rebased_eq_lifted place b ▸ .lifted b _

theorem ThreadCode.rebased_eq {c : ThreadCode} {b : Binder} (place : ThreadPlace) (apart : ∀ p ∈ b.place, p.block ∉ c.blocks) :
    c.rebased place b = b := by
  obtain ⟨name, ty, placement⟩ := b
  cases placement with
  | none => rfl
  | some p => simp only [ThreadCode.rebased, Option.map_some, if_neg (apart p rfl)]

theorem Resettled.moved {codes codes' : List ThreadCode} (h : Resettled codes codes') :
    List.Forall₂ Diagnostic.Moved (codes.flatMap ThreadCode.diagnostics) (codes'.flatMap ThreadCode.diagnostics) := by
  induction h with
  | nil => exact .nil
  | cons here _ ih =>
    obtain ⟨_, place, same⟩ := here
    rw [List.flatMap_cons, List.flatMap_cons, same]
    refine List.rel_append (List.forall₂_map_right_iff.mpr (List.forall₂_same.mpr fun d _ => ⟨rfl, ?_⟩)) ih
    exact ThreadCode.rebased_moved _ place d.block

theorem Resettled.same {codes codes' : List ThreadCode} (h : Resettled codes codes')
    (apart : ∀ d ∈ codes.flatMap ThreadCode.diagnostics, ∀ p ∈ d.block.place, p.block ∉ codes.flatMap ThreadCode.blocks) :
    codes'.flatMap ThreadCode.diagnostics = codes.flatMap ThreadCode.diagnostics := by
  induction h with
  | nil => rfl
  | @cons c c' codes codes' here _ ih =>
    obtain ⟨_, place, same⟩ := here
    rw [List.flatMap_cons] at apart
    have first : c.movedDiagnostics place = c.diagnostics := by
      refine (List.map_congr_left fun d mem => ?_).trans (List.map_id _)
      rw [ThreadCode.rebased_eq place fun p mem' block => apart d (List.mem_append_left _ mem) p mem' (List.mem_append_left _ block)]
      rfl
    rw [List.flatMap_cons, List.flatMap_cons, same, first,
      ih fun d mem p mem' block => apart d (List.mem_append_right _ mem) p mem' (List.mem_append_right _ block)]

/-- Expanding an expanded program changes nothing and draws no names. It reports the same allocations in the
same order; one that lies itself in a lifted block is reported where it lies by now. -/
theorem Program.expand_again {options : ExpandOptions} {names : NameSupply} {p : Program} {e : Expansion}
    (expanded : p.expand options names = .ok e) (apart : ∀ c ∈ p.threadCodes, c.SizesApart) (again : NameSupply) :
    ∃ found, e.program.expand options again = .ok ⟨e.program, again, found⟩ ∧ List.Forall₂ Diagnostic.Moved e.diagnostics found ∧
      ((∀ d ∈ e.diagnostics, ∀ place ∈ d.block.place, place.block ∉ p.threadCodes.flatMap ThreadCode.blocks) →
        found = e.diagnostics) := by
  obtain ⟨steps, funs, ran⟩ := Program.expand_steps expanded
  obtain ⟨before, after⟩ := funs.launches
  have resettled : Resettled p.threadCodes e.program.threadCodes := by
    unfold Program.threadCodes at apart ⊢
    rw [before] at apart
    rw [before, after]
    exact .of_expanded ran.codes apart
  have reported : e.diagnostics = p.threadCodes.flatMap ThreadCode.diagnostics := by
    rw [← p.diagnostics_eq, before, List.flatMap_map]
    exact ran.reported
  rw [reported]
  have moved := resettled.moved
  refine ⟨e.program.threadCodes.flatMap ThreadCode.diagnostics, ?_, moved, resettled.same⟩
  rw [← e.program.diagnostics_eq] at moved ⊢
  refine Program.expand_settled e.program again ⟨fun k launched c mem => ?_, fun strict => ?_⟩
  · obtain ⟨c₀, _, settled, _⟩ := exists_of_mem_right resettled (List.mem_flatMap.mpr ⟨k, launched, mem⟩)
    exact settled
  · have nothing : p.threadCodes.flatMap ThreadCode.diagnostics = [] := by
      rw [← p.diagnostics_eq, before, List.flatMap_map]
      exact ran.lenient strict
    rw [nothing] at moved
    exact List.forall₂_nil_left_iff.mp moved

theorem twoBlocks_expand_again :
    ∃ e found, twoBlocks.expand {} ⟨6⟩ = .ok e ∧ (∀ c ∈ twoBlocks.threadCodes, c.SizesApart) ∧
      e.program.expand {} ⟨9⟩ = .ok ⟨e.program, ⟨9⟩, found⟩ ∧ List.Forall₂ Diagnostic.Moved e.diagnostics found := by
  obtain ⟨e, expanded⟩ : ∃ e, twoBlocks.expand {} ⟨6⟩ = .ok e := ⟨_, rfl⟩
  have apart : ∀ c ∈ twoBlocks.threadCodes, c.SizesApart := by decide
  obtain ⟨found, same, moved, _⟩ := Program.expand_again expanded apart ⟨9⟩
  exact ⟨e, found, expanded, apart, same, moved⟩

/-- The second block is reported in the first as a thread sees it, and then in the block for all threads. -/
theorem twoBlocks_reports_differ : ∃ e e', twoBlocks.expand {} ⟨6⟩ = .ok e ∧ e.program.expand {} e.names = .ok e' ∧
    (∀ c ∈ twoBlocks.threadCodes, c.SizesApart) ∧ e'.diagnostics ≠ e.diagnostics := by
  refine ⟨_, _, rfl, rfl, by decide, fun same => ?_⟩
  have placements := congrArg (List.map fun d => d.block.place) same
  revert placements
  decide

end ArrayKernels
