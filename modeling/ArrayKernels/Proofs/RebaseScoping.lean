import ArrayKernels.Proofs.ExpandedKernel
import ArrayKernels.Proofs.RuleScoping

/-! The code of a thread stays in scope when its allocations are lifted: the blocks are bound in front of the kernel, and
rebased placements mention the thread and the number of threads. -/
namespace ArrayKernels

/-! Rebasing -/

section
variable {S : Scope} {l : Lift}

namespace IndexFn

variable {v : Name}

theorem free_rebase {f bottom : IndexFn} (mem : v ∈ (f.rebase bottom).free) : v ∈ f.free ∨ v ∈ bottom.free := by
  induction f with
  | rowMajor dims => exact .inr mem
  | permute base perm ih => exact ih mem
  | reshape base dims ih =>
    rcases NameSet.mem_union.mp mem with inner | here
    · exact (ih inner).imp_left fun mem => NameSet.mem_union.mpr (.inl mem)
    · exact .inl (NameSet.mem_union.mpr (.inr here))
  | slice base dims ih =>
    rcases NameSet.mem_union.mp mem with inner | here
    · exact (ih inner).imp_left fun mem => NameSet.mem_union.mpr (.inl mem)
    · exact .inl (NameSet.mem_union.mpr (.inr here))

theorem free_bottomShape {f : IndexFn} (mem : v ∈ NameSet.gather IndexExpr.free f.bottomShape) : v ∈ f.free := by
  induction f with
  | rowMajor dims => exact mem
  | permute base perm ih => exact ih mem
  | reshape base dims ih => exact NameSet.mem_union.mpr (.inl (ih mem))
  | slice base dims ih => exact NameSet.mem_union.mpr (.inl (ih mem))

theorem free_permuted (f : IndexFn) (perm : List Nat) : (f.permuted perm).free = f.free := by
  unfold permuted
  split <;> rfl

end IndexFn

/-- The place of a thread mentions names of the scope only. -/
def ThreadPlace.Within (S : Scope) (p : ThreadPlace) : Prop := InScope S p.thread.free ∧ InScope S p.threads.free

theorem ThreadPlace.Within.mono {T : Scope} {p : ThreadPlace} (h : p.Within S) (more : ∀ v, S v → T v) : p.Within T :=
  ⟨h.1.mono more, h.2.mono more⟩

theorem ThreadPlace.free_layout {p : ThreadPlace} (within : p.Within S) {shape : List IndexExpr}
    (inside : InScope S (NameSet.gather IndexExpr.free shape)) : InScope S (p.layout shape).free := by
  rw [InScope.gather_iff] at inside
  rw [layout, IndexFn.free, IndexFn.free_permuted, IndexFn.free, InScope.union_iff, InScope.gather_iff, InScope.gather_iff]
  constructor
  · intro x mem
    rcases List.mem_append.mp mem with dim | last
    · exact inside x dim
    · exact List.mem_singleton.mp last ▸ within.2
  · intro x mem
    rcases List.mem_cons.mp mem with rfl | full
    · exact within.1
    · obtain ⟨dim, among, rfl⟩ := List.mem_map.mp full
      simp only [AxisSlice.full, AxisSlice.free, IndexExpr.free, InScope.union_iff]
      exact ⟨⟨InScope.empty, inside dim among⟩, InScope.empty⟩

theorem Binder.free_rebased {b : Binder} (within : l.place.Within S) (inside : InScope S b.free) : InScope S (b.rebased l).free := by
  obtain ⟨name, ty, place⟩ := b
  cases place with
  | none => exact inside
  | some p =>
    simp only [Binder.free, Binder.rebased, Option.map_some, Lift.placement, InScope.union_iff] at inside ⊢
    refine ⟨inside.1, ?_⟩
    split
    · obtain ⟨block, index⟩ := p
      simp only [Placement.free, InScope.union_iff] at inside ⊢
      refine ⟨inside.2.1, fun v mem => ?_⟩
      rcases IndexFn.free_rebase mem with old | new
      · exact inside.2.2 v old
      · exact ThreadPlace.free_layout within (inside.2.2.part fun _ => IndexFn.free_bottomShape) v new
    · exact inside.2

theorem BindersScoped.rebased {bs : List Binder} (within : l.place.Within S) (h : BindersScoped S bs) :
    BindersScoped S (bs.map (·.rebased l)) := by
  induction bs generalizing S with
  | nil => trivial
  | cons b bs ih => exact ⟨b.free_rebased within h.1, ih (within.mono fun _ => .inl) h.2⟩

theorem Pattern.Scoped.rebased {p : Pattern} (within : l.place.Within S) (h : p.Scoped S) : (p.rebased l).Scoped S := by
  refine ⟨h.1.rebased within, fun b mem => ?_⟩
  obtain ⟨old, among, rfl⟩ := List.mem_map.mp mem
  rw [Pattern.rebased, ArrayKernels.names_rebased]
  exact old.free_rebased (within.mono fun _ => .inl) (h.2 old among)

end

mutual

theorem Exp.bound_rebased (l : Lift) : ∀ e : Exp, (e.rebased l).bound = e.bound
  | .operand _ | .binary .. | .compare .. | .index .. | .update .. | .iota .. | .replicate .. | .reshape .. | .rearrange ..
  | .copy _ | .alloc .. | .launch _ => rfl
  | .branch _ onTrue onFalse _ => by rw [Exp.rebased, Exp.bound, Exp.bound, Body.bound_rebased l onTrue, Body.bound_rebased l onFalse]
  | .loop context values index bound body => by
    simp only [Exp.rebased, Exp.bound, Body.bound_rebased l body, List.map_append, List.map_map]
    rfl

theorem boundInStms_rebased (l : Lift) : ∀ stms : List Stm, boundInStms (stmsRebased l stms) = boundInStms stms
  | [] => rfl
  | ⟨pat, certs, exp⟩ :: stms => by
    rw [stmsRebased, boundInStms, boundInStms, pat.names_rebased, Exp.bound_rebased l exp, boundInStms_rebased l stms]

theorem Body.bound_rebased (l : Lift) : ∀ body : Body, (body.rebased l).bound = body.bound
  | ⟨stms, _⟩ => boundInStms_rebased l stms

end

mutual

theorem Exp.Scoped.rebased {l : Lift} : ∀ (e : Exp) {S : Scope}, l.place.Within S → e.Scoped S → (e.rebased l).Scoped S
  | .operand _, _, _, h | .binary .., _, _, h | .compare .., _, _, h | .index .., _, _, h | .update .., _, _, h | .iota .., _, _, h
  | .replicate .., _, _, h | .reshape .., _, _, h | .rearrange .., _, _, h | .copy _, _, _, h | .alloc .., _, _, h
  | .launch _, _, _, h => h
  | .branch _ onTrue onFalse _, _, within, h =>
    ⟨h.1, Body.Scoped.rebased onTrue within h.2.1, Body.Scoped.rebased onFalse within h.2.2⟩
  | .loop context values index bound body, _, within, h => by
    have params := h.2.1.rebased within
    have inner := Body.Scoped.rebased body (within.mono fun _ => .inl) h.2.2
    have operands := h.1
    simp only [Exp.Scoped, Exp.rebased, List.map_append, List.map_map] at params inner operands ⊢
    exact ⟨operands, params, inner⟩

theorem StmsScoped.rebased {l : Lift} : ∀ (stms : List Stm) {after : NameSet} {S : Scope}, l.place.Within S →
    StmsScoped S after stms → StmsScoped S after (stmsRebased l stms)
  | [], _, _, _, h => h
  | ⟨pat, _, exp⟩ :: stms, _, _, within, h => by
    refine ⟨⟨h.1.1, h.1.2.1.rebased within, Exp.Scoped.rebased exp within h.1.2.2⟩, ?_⟩
    rw [pat.names_rebased]
    exact StmsScoped.rebased stms (within.mono fun _ => .inl) h.2

theorem Body.Scoped.rebased {l : Lift} : ∀ (body : Body) {S : Scope}, l.place.Within S → body.Scoped S → (body.rebased l).Scoped S
  | ⟨stms, _⟩, _, within, h => StmsScoped.rebased stms within h

end

/-! Without the lifted allocations -/

section
variable {inside : List Name}

theorem liftedSites_append (sites more : List AllocSite) :
    liftedSites inside (sites ++ more) = liftedSites inside sites ++ liftedSites inside more := List.filter_append ..

theorem liftedSites_nil : liftedSites inside [] = [] := rfl

theorem liftedSites_variant {a : AllocSite} (variant : a.isVariant inside = true) : liftedSites inside [a] = [] := by
  simp [liftedSites, variant]

theorem liftedSites_invariant {a : AllocSite} (invariant : ¬ a.isVariant inside = true) : liftedSites inside [a] = [a] := by
  simp [liftedSites, invariant]

-- A binder stays in the code or is that of a lifted block.
mutual

theorem Exp.count_withoutLifted (v : Name) : ∀ e : Exp,
    (e.withoutLifted inside).bound.count v + ((liftedSites inside e.allocSites).map AllocSite.name).count v = e.bound.count v
  | .operand _ | .binary .. | .compare .. | .index .. | .update .. | .iota .. | .replicate .. | .reshape .. | .rearrange ..
  | .copy _ | .alloc .. | .launch _ => rfl
  | .branch _ onTrue onFalse _ => by
    have yes := Body.count_withoutLifted v onTrue
    have no := Body.count_withoutLifted v onFalse
    simp only [Exp.withoutLifted, Exp.bound, Exp.allocSites, liftedSites_append, List.map_append, List.count_append]
    omega
  | .loop _ _ _ _ body => by
    have inner := Body.count_withoutLifted v body
    simp only [Exp.withoutLifted, Exp.bound, Exp.allocSites, List.count_append]
    omega

theorem count_stmsWithoutLifted (v : Name) : ∀ stms : List Stm,
    (boundInStms (stmsWithoutLifted inside stms)).count v + ((liftedSites inside (allocSitesIn stms)).map AllocSite.name).count v =
      (boundInStms stms).count v
  | [] => rfl
  | ⟨pat, certs, exp⟩ :: stms => by
    have later := count_stmsWithoutLifted v stms
    have inner := Exp.count_withoutLifted v exp
    simp only [allocSitesIn, boundInStms, stmsWithoutLifted, liftedSites_append, List.map_append, List.count_append]
    cases site : allocSite pat exp with
    | none =>
      simp only [boundInStms, List.count_append, Option.toList_none, liftedSites_nil, List.map_nil, List.count_nil]
      omega
    | some a =>
      obtain ⟨rfl, rfl⟩ := allocSite_eq_some.mp site
      simp only [Exp.bound, Exp.allocSites, liftedSites_nil, List.map_nil, List.count_nil, Option.toList_some]
      split
      · rename_i variant
        simp only [liftedSites_variant variant, boundInStms, Exp.bound, List.count_append, List.map_nil, List.count_nil]
        omega
      · rename_i invariant
        simp only [liftedSites_invariant invariant, List.map_cons, List.map_nil]
        change _ + ([a.name].count v + 0 + _) = [a.name].count v + 0 + _
        omega

theorem Body.count_withoutLifted (v : Name) : ∀ body : Body,
    (body.withoutLifted inside).bound.count v + ((liftedSites inside body.allocSites).map AllocSite.name).count v = body.bound.count v
  | ⟨stms, _⟩ => count_stmsWithoutLifted v stms

end

-- The blocks are bound before, so the code may mention them from the start.
mutual

theorem Exp.Scoped.withoutLifted : ∀ (e : Exp) {S T : Scope}, (∀ v, S v → T v) →
    (∀ a ∈ liftedSites inside e.allocSites, T a.name) → e.Scoped S → (e.withoutLifted inside).Scoped T
  | .operand _, _, _, more, _, h | .binary .., _, _, more, _, h | .compare .., _, _, more, _, h | .index .., _, _, more, _, h
  | .update .., _, _, more, _, h | .iota .., _, _, more, _, h | .replicate .., _, _, more, _, h | .reshape .., _, _, more, _, h
  | .rearrange .., _, _, more, _, h | .copy _, _, _, more, _, h | .alloc .., _, _, more, _, h => InScope.mono h more
  | .launch _, _, _, more, _, h => Kernel.Scoped.mono more h
  | .branch _ onTrue onFalse _, _, _, more, blocks, h => by
    rw [Exp.allocSites, liftedSites_append] at blocks
    refine ⟨h.1.mono more, Body.Scoped.withoutLifted onTrue more (fun a mem => blocks a ?_) h.2.1,
      Body.Scoped.withoutLifted onFalse more (fun a mem => blocks a ?_) h.2.2⟩
    · exact List.mem_append_left _ mem
    · exact List.mem_append_right _ mem
  | .loop _ _ _ _ body, _, _, more, blocks, h =>
    ⟨h.1.mono more, h.2.1.mono more,
      Body.Scoped.withoutLifted body (fun v mem => mem.imp_left (more v)) (fun a mem => .inl (blocks a mem)) h.2.2⟩

theorem StmsScoped.withoutLifted : ∀ (stms : List Stm) {after : NameSet} {S T : Scope}, (∀ v, S v → T v) →
    (∀ a ∈ liftedSites inside (allocSitesIn stms), T a.name) → StmsScoped S after stms →
    StmsScoped T after (stmsWithoutLifted inside stms)
  | [], _, _, _, more, _, h => InScope.mono h more
  | ⟨pat, certs, exp⟩ :: stms, after, S, T, more, blocks, h => by
    obtain ⟨⟨certified, typed, computed⟩, later⟩ := h
    rw [allocSitesIn, liftedSites_append, liftedSites_append] at blocks
    have rest (a : AllocSite) (mem : a ∈ liftedSites inside (allocSitesIn stms)) : T a.name := blocks a (List.mem_append_right _ mem)
    have behind : StmsScoped (T.bind pat.names) after (stmsWithoutLifted inside stms) :=
      StmsScoped.withoutLifted stms (fun v mem => mem.imp_left (more v)) (fun a mem => .inl (rest a mem)) later
    rw [stmsWithoutLifted]
    split
    · rename_i a site
      obtain ⟨rfl, rfl⟩ := allocSite_eq_some.mp site
      split
      · exact ⟨⟨certified.mono more, typed.mono more, computed.mono more⟩, behind⟩
      · rename_i invariant
        -- the block is in scope already
        refine StmsScoped.withoutLifted stms (fun v mem => ?_) rest later
        rcases mem with visible | own
        · exact more v visible
        · obtain rfl := List.mem_singleton.mp own
          refine blocks a (List.mem_append_left _ (List.mem_append_left _ ?_))
          rw [site, Option.toList_some, liftedSites_invariant invariant]
          exact List.mem_singleton.mpr rfl
    · refine ⟨⟨certified.mono more, typed.mono more, Exp.Scoped.withoutLifted exp more (fun a mem => blocks a ?_) computed⟩, behind⟩
      exact List.mem_append_left _ (List.mem_append_right _ mem)

theorem Body.Scoped.withoutLifted : ∀ (body : Body) {S T : Scope}, (∀ v, S v → T v) →
    (∀ a ∈ liftedSites inside body.allocSites, T a.name) → body.Scoped S → (body.withoutLifted inside).Scoped T
  | ⟨stms, _⟩, _, _, more, blocks, h => StmsScoped.withoutLifted stms more blocks h

end

/-! Allocations -/

/-- The names in the placement of a binder. -/
def Binder.placed (b : Binder) : NameSet :=
  match b.place with
  | none => ∅
  | some p => p.free

theorem Binder.free_eq (b : Binder) : b.free = b.ty.free ∪ b.placed := rfl

/-- What an allocation mentions is in scope. -/
def AllocSite.Within (S : Scope) (a : AllocSite) : Prop := InScope S a.size.free ∧ InScope S a.block.placed

theorem AllocSite.Within.mono {S T : Scope} {a : AllocSite} (h : a.Within S) (more : ∀ v, S v → T v) : a.Within T :=
  ⟨h.1.mono more, h.2.mono more⟩

mutual

theorem Exp.Scoped.allocSites : ∀ (e : Exp) {S : Scope}, e.Scoped S → ∀ a ∈ e.allocSites, a.Within (S.bind e.bound)
  | .operand _, _, _, _, mem | .binary .., _, _, _, mem | .compare .., _, _, _, mem | .index .., _, _, _, mem
  | .update .., _, _, _, mem | .iota .., _, _, _, mem | .replicate .., _, _, _, mem | .reshape .., _, _, _, mem
  | .rearrange .., _, _, _, mem | .copy _, _, _, _, mem | .alloc .., _, _, _, mem | .launch _, _, _, _, mem => nomatch mem
  | .branch _ onTrue onFalse _, S, h, a, mem => by
    rw [Exp.allocSites, List.mem_append] at mem
    rw [Exp.bound, Scope.bind_append]
    rcases mem with yes | no
    · exact (Body.Scoped.allocSites onTrue h.2.1 a yes).mono fun _ => .inl
    · exact (Body.Scoped.allocSites onFalse h.2.2 a no).mono fun v mem => mem.imp_left .inl
  | .loop _ _ _ _ body, S, h, a, mem => by
    rw [Exp.bound, Scope.bind_append]
    exact Body.Scoped.allocSites body h.2.2 a mem

theorem StmsScoped.allocSites : ∀ (stms : List Stm) {after : NameSet} {S : Scope}, StmsScoped S after stms →
    ∀ a ∈ allocSitesIn stms, a.Within (S.bind (boundInStms stms))
  | [], _, _, _, _, mem => nomatch mem
  | ⟨pat, certs, exp⟩ :: stms, after, S, h, a, mem => by
    rw [allocSitesIn, List.mem_append, List.mem_append] at mem
    rw [boundInStms, Scope.bind_append, Scope.bind_append]
    rcases mem with (here | inner) | later
    · obtain ⟨rfl, rfl⟩ := allocSite_eq_some.mp (Option.mem_toList.mp here)
      have typed := h.1.2.1.2 a.block List.mem_cons_self
      rw [Binder.free_eq, InScope.union_iff] at typed
      constructor
      · exact InScope.mono h.1.2.2 fun v mem => .inl (.inl (.inl mem))
      · exact typed.2.mono fun v mem => .inl (.inl (.inl (mem.resolve_right List.not_mem_nil)))
    · exact (Exp.Scoped.allocSites exp h.1.2.2 a inner).mono fun v mem => .inl (mem.imp_left .inl)
    · exact (StmsScoped.allocSites stms h.2 a later).mono fun v mem => mem.imp_left .inl

theorem Body.Scoped.allocSites : ∀ (body : Body) {S : Scope}, body.Scoped S → ∀ a ∈ body.allocSites, a.Within (S.bind body.bound)
  | ⟨stms, _⟩, _, h, a, mem => StmsScoped.allocSites stms h a mem

end

end

/-- The blocks are allocated one after another, each with room for all threads. -/
theorem liftedStms_moves {S : Scope} {threads : Operand} {sites : List AllocSite} {names names' : NameSupply} {stms : List Stm}
    (h : (stms, names') = liftedStms threads sites names) (counted : InScope S threads.free) (within : ∀ a ∈ sites, a.Within S) :
    Moves S names.next names'.next (sites.map AllocSite.name) stms [] fun T => ∀ a ∈ sites, T a.name := by
  induction sites generalizing S names stms with
  | nil =>
    cases h
    exact .stay _ fun _ _ _ mem => nomatch mem
  | cons a sites ih =>
    dsimp only [liftedStms, NameSupply.fresh] at h
    generalize made : liftedStms threads sites ⟨names.next + 1⟩ = rest at h
    cases h
    obtain ⟨sized, placed⟩ := within a List.mem_cons_self
    generalize total : (⟨a.block.name.base ++ "_total", names.next⟩ : Name) = t
    have first : Moves S names.next (names.next + 1) [] [.ofWord t (.binary .mul threads a.size)] [] fun T => T t := by
      subst total
      exact .drawOne (.single rfl InScope.empty InScope.empty (InScope.union_iff.mpr ⟨counted, sized⟩))
    have second : Moves (S.bind [t]) (names.next + 1) (names.next + 1) [a.name]
        [⟨⟨[], [{ a.block with ty := .mem (.var t) a.space }]⟩, [], .alloc (.var t) a.space⟩] [] fun T => T a.name := by
      have visible : InScope (S.bind [t]) (Operand.var t).free := InScope.singleton_iff.mpr (.inr List.mem_cons_self)
      exact .leaf (b := { a.block with ty := .mem (.var t) a.space }) rfl InScope.empty
        (InScope.union_iff.mpr ⟨visible, placed.mono fun _ => .inl⟩) visible
    have third := ih (S := (S.bind [t]).bind [a.name]) made.symm (counted.mono fun _ mem => .inl (.inl mem))
      fun a' mem => (within a' (List.mem_cons_of_mem _ mem)).mono fun _ mem => .inl (.inl mem)
    have all := first.next (second.next third)
    refine { all with after := fun T part a' mem => ?_ }
    obtain ⟨_, here, later⟩ := all.after T part
    rcases List.mem_cons.mp mem with rfl | among
    · exact here
    · exact later a' among

end ArrayKernels
