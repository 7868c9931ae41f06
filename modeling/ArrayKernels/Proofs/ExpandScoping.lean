import ArrayKernels.Proofs.ExpandedProgram
import ArrayKernels.Proofs.RebaseScoping

/-! Expansion keeps host code in scope. The allocations in front of a kernel mention what is visible there, if the blocks that
are lifted carry no placements that depend on the threads. -/
namespace ArrayKernels

section
variable {S T : Scope} {inside : List Name} {lift : Option Lift} {threads : Operand}

theorem threadPlace_within {thread : Name} {place : ThreadPlace} (located : threadPlace thread threads = .ok place)
    (visible : S thread) (counted : InScope S threads.free) : place.Within S := by
  unfold threadPlace at located
  split at located
  · rename_i n known
    cases located
    refine ⟨InScope.singleton_iff.mpr visible, ?_⟩
    cases threads with
    | var v =>
      cases known
      exact counted
    | const c =>
      obtain ⟨w, _, rfl⟩ := Option.map_eq_some_iff.mp known
      exact InScope.empty
  · cases located

/-- A lifted allocation mentions nothing that is bound in the kernel. -/
theorem AllocSite.Within.leave {a : AllocSite} {own : List Name} (h : a.Within (S.bind own)) (invariant : a.isVariant inside = false)
    (covers : ∀ v ∈ own, v ∈ inside) (plain : ∀ v ∈ a.block.placed, v ∉ own) : a.Within S := by
  constructor
  · exact fun v mem => (h.1 v mem).resolve_right fun bound => AllocSite.size_outside invariant mem (covers v bound)
  · exact fun v mem => (h.2 v mem).resolve_right (plain v mem)

/-- The binder of an array that lies in no lifted block stays as it is. -/
theorem Binder.lifted_eq {b : Binder} (apart : ∀ l ∈ lift, ∀ v ∈ b.free, v ∉ l.blocks) : b.lifted lift = b := by
  obtain ⟨name, ty, place⟩ := b
  cases lift with
  | none => rfl
  | some l =>
    cases place with
    | none => rfl
    | some p =>
      have other : p.block ∉ l.blocks := by
        refine apart l rfl p.block (NameSet.mem_union.mpr (.inr ?_))
        exact NameSet.mem_union.mpr (.inl (NameSet.mem_singleton.mpr rfl))
      simp only [lifted, rebased, Option.map_some, Lift.placement, if_neg other]

theorem map_lifted_eq {bs : List Binder} (apart : ∀ l ∈ lift, ∀ v ∈ freeBinders bs, v ∉ l.blocks) : bs.map (·.lifted lift) = bs := by
  refine (List.map_congr_left fun b mem => ?_).trans (List.map_id bs)
  exact b.lifted_eq fun l lifts v free => apart l lifts v (NameSet.mem_gather.mpr ⟨b, mem, free⟩)

namespace Body

theorem count_lifted (inside : List Name) (lift : Option Lift) (body : Body) (v : Name) :
    (body.lifted inside lift).bound.count v + ((liftedSites inside body.allocSites).map AllocSite.name).count v = body.bound.count v := by
  cases lift with
  | none => exact body.count_withoutLifted v
  | some l => rw [lifted, bound_rebased, body.count_withoutLifted v]

theorem Scoped.lifted {body : Body} (h : body.Scoped S) (more : ∀ v, S v → T v)
    (blocks : ∀ a ∈ liftedSites inside body.allocSites, T a.name) (placed : ∀ l ∈ lift, l.place.Within T) :
    (body.lifted inside lift).Scoped T := by
  have without := Body.Scoped.withoutLifted body more blocks h
  cases lift with
  | none => exact without
  | some l => exact Body.Scoped.rebased _ (placed l rfl) without

/-- A body under some names: its lifted allocations are in scope outside, and the rest of it behind them. -/
theorem lifted_moves (own : List Name) {body : Body} {stms : List Stm} {names names' : NameSupply}
    (made : (stms, names') = liftedStms threads (liftedSites inside body.allocSites) names) (within : body.Scoped (S.bind own))
    (counted : InScope S threads.free) (covers : ∀ v ∈ own ++ body.bound, v ∈ inside)
    (plain : ∀ a ∈ liftedSites inside body.allocSites, ∀ v ∈ a.block.placed, v ∉ own ++ body.bound)
    (placed : ∀ l ∈ lift, l.place.Within (S.bind own)) :
    Moves S names.next names'.next body.bound stms (body.lifted inside lift).bound fun T => (body.lifted inside lift).Scoped (T.bind own) := by
  have outside (a : AllocSite) (mem : a ∈ liftedSites inside body.allocSites) : a.Within S := by
    obtain ⟨site, invariant⟩ := mem_liftedSites.mp mem
    have here := Body.Scoped.allocSites body within a site
    rw [← Scope.bind_append] at here
    exact here.leave invariant covers (plain a mem)
  have moves := liftedStms_moves made counted outside
  refine { moves with counts := fun v => ?_, after := fun T part => ?_ }
  · have count := moves.counts v
    have divided := body.count_lifted inside lift v
    simp only [List.count_nil] at count
    omega
  · have more (v : Name) (mem : S.bind own v) : T.bind own v := mem.imp_left fun visible => part v (.inl visible)
    exact within.lifted more (fun a mem => .inl (moves.after T part a mem)) fun l mem => (placed l mem).mono more

end Body

end

/-- No lifted block of the kernel carries a placement that mentions a name of the kernel. -/
def Kernel.LiftsPlainly (k : Kernel) : Prop := ∀ a ∈ k.lifted, InScope (fun v => v ∉ k.bound) a.block.placed

instance (k : Kernel) : Decidable k.LiftsPlainly :=
  inferInstanceAs (Decidable (∀ a ∈ k.lifted, InScope (fun v => v ∉ k.bound) a.block.placed))

section
variable {S : Scope} {options : ExpandOptions} {s t : ExpandState} {stms : List Stm}

theorem LaunchSize.inScope_threads (size : LaunchSize) (h : InScope S size.free) : InScope S size.threads.free :=
  InScope.gather_iff.mp h size.threads (by simp [LaunchSize.operands])

theorem Lambda.expand_moves {label : String} {threads : Operand} {op op' : Lambda} {leading : Nat}
    (made : op.expand options label threads s = .ok ((stms, op'), t)) (counted : InScope S threads.free)
    (fits : Fits S s.names.next op.bound) (inside : op.Scoped S leading)
    (plain : ∀ a ∈ op.lifted, ∀ v ∈ a.block.placed, v ∉ op.bound) :
    Moves S s.names.next t.names.next op.bound stms op'.bound fun T => op'.Scoped T leading := by
  obtain ⟨params, body, ret⟩ := op
  cases params with
  | nil =>
    obtain ⟨same, rfl⟩ := Pass.pure_eq_ok.mp made
    cases same
    exact .stay _ fun T more => inside.mono more
  | cons thread params =>
    obtain ⟨⟨drawn, lift⟩, r, lifts, made⟩ := Pass.bind_eq_ok.mp made
    obtain ⟨same, rfl⟩ := Pass.pure_eq_ok.mp made
    cases same
    obtain ⟨drew, placed⟩ := liftSites_eq_ok lifts
    have apart : ∀ l ∈ lift, ∀ v ∈ freeBinders (thread :: params), v ∉ l.blocks := by
      intro l mem v free block
      rw [(placed l mem).2] at block
      have bound := ((liftedSites_sublist _ _).trans body.allocSites_sublist).subset block
      exact fits.enter.apart v bound (inside.params v free)
    rw [map_lifted_eq apart]
    have moves := Body.lifted_moves ((thread :: params).map Binder.name) drew inside.2.2.2 counted
      (fun v mem => ?_) plain fun l mem => threadPlace_within (placed l mem).1 (.inr List.mem_cons_self) (counted.mono fun _ => .inl)
    · refine (moves.under ((thread :: params).map Binder.name)).imp fun T more body => ?_
      have widen (v : Name) (mem : S.bind (((thread :: params).take leading).map Binder.name) v) :
          T.bind (((thread :: params).take leading).map Binder.name) v := mem.imp_left (more v)
      exact ⟨inside.1.mono more, fun b mem => (inside.2.1 b mem).mono widen, inside.2.2.1.mono widen, body⟩
    · exact List.mem_append.mpr (List.mem_append.mp mem).symm

theorem MapKernel.expand_moves {k : MapKernel} {k' : Kernel} (made : (Kernel.map k).expand options s = .ok ((stms, k'), t))
    (fits : Fits S s.names.next (Kernel.map k).bound) (inside : (Kernel.map k).Scoped S) (plain : (Kernel.map k).LiftsPlainly) :
    Moves S s.names.next t.names.next (Kernel.map k).bound stms k'.bound k'.Scoped := by
  obtain ⟨⟨drawn, lift⟩, r, lifts, made⟩ := Pass.bind_eq_ok.mp made
  obtain ⟨same, rfl⟩ := Pass.pure_eq_ok.mp made
  cases same
  obtain ⟨drew, placed⟩ := liftSites_eq_ok lifts
  obtain ⟨operands, inputs, body⟩ := (Kernel.scoped_map k).mp inside
  rw [Kernel.LiftsPlainly, Kernel.bound_map] at plain
  rw [Kernel.bound_map] at fits ⊢
  have unchanged : (k.inputs.map fun i => { i with param := i.param.lifted lift }) = k.inputs := by
    refine (List.map_congr_left fun i mem => ?_).trans (List.map_id _)
    have same : i.param.lifted lift = i.param := by
      refine Binder.lifted_eq fun l among v free block => ?_
      rw [(placed l among).2] at block
      have bound := ((liftedSites_sublist _ _).trans k.body.allocSites_sublist).subset block
      refine fits.enter.apart v bound ((inputs i mem v (NameSet.mem_union.mpr (.inr free))).imp_right fun place => ?_)
      rw [threadNames_eq]
      exact List.mem_append_left _ place
    rw [same]
    rfl
  have counted : InScope S k.width.free := (InScope.union_iff.mp (InScope.union_iff.mp (InScope.union_iff.mp operands).1).1).2
  have moves := Body.lifted_moves k.threadNames drew body counted (fun v mem => List.mem_append.mpr (List.mem_append.mp mem).symm)
    plain fun l mem => threadPlace_within (placed l mem).1 (.inr List.mem_cons_self) (counted.mono fun _ => .inl)
  rw [unchanged, Kernel.bound_map]
  refine (moves.under k.threadNames).imp fun T more body => (Kernel.scoped_map _).mpr ⟨operands.mono more, fun i mem => ?_, body⟩
  exact (inputs i mem).mono fun v mem => mem.imp_left (more v)

/-! Group kernels -/

theorem GroupStm.Scoped.allocSites {stm : GroupStm} (h : stm.Scoped S) : ∀ a ∈ stm.allocSites, a.Within (S.bind stm.bound) := by
  intro a mem
  cases stm with
  | split size chunks division width perThread arrays => cases mem
  | thread pat only body =>
    rw [GroupStm.bound, Scope.bind_append]
    exact (Body.Scoped.allocSites body h.2.2 a mem).mono fun v mem => mem.imp_left .inl
  | reduce pat width op inputs =>
    obtain ⟨params, body, ret⟩ := op
    rw [GroupStm.bound, Lambda.bound, Scope.bind_append, Scope.bind_append]
    exact (Body.Scoped.allocSites body h.2.2.2.2.2 a mem).mono fun v mem => mem.imp_left fun outer => outer.imp_left .inl

theorem GroupStmsScoped.allocSites {after : NameSet} {stms : List GroupStm} (h : GroupStmsScoped S after stms) :
    ∀ a ∈ stms.flatMap GroupStm.allocSites, a.Within (S.bind (boundInGroupStms stms)) := by
  induction stms generalizing S with
  | nil => exact fun _ mem => nomatch mem
  | cons stm stms ih =>
    intro a mem
    rw [boundInGroupStms, Scope.bind_append]
    rcases List.mem_append.mp mem with here | later
    · exact (h.1.allocSites a here).mono fun _ => .inl
    · refine (ih h.2 a later).mono fun v mem => mem.imp_left fun outer => outer.imp_right fun own => ?_
      rw [stm.bound_eq]
      exact List.mem_append_left _ own

/-- A pattern with the arrays in lifted blocks rebased. -/
def Pattern.lifted (lift : Option Lift) (p : Pattern) : Pattern := ⟨p.context.map (·.lifted lift), p.values.map (·.lifted lift)⟩

section
variable {T : Scope} {inside : List Name} {lift : Option Lift}

theorem map_lifted_none (bs : List Binder) : bs.map (·.lifted none) = bs := List.map_id bs

theorem GroupStm.lifted_split (size : Binder) (chunks : List Binder) (division : Division) (width perThread : Operand) (arrays : List Name) :
    (GroupStm.split size chunks division width perThread arrays).lifted inside lift =
      .split (size.lifted lift) (chunks.map (·.lifted lift)) division width perThread arrays := by
  cases lift with
  | none => rw [map_lifted_none]; rfl
  | some l => rfl

theorem GroupStm.lifted_thread (pat : Pattern) (only : Option Operand) (body : Body) :
    (GroupStm.thread pat only body).lifted inside lift = .thread (pat.lifted lift) only (body.lifted inside lift) := by
  cases lift with
  | none => rw [Pattern.lifted, map_lifted_none, map_lifted_none]; rfl
  | some l => rfl

theorem GroupStm.lifted_reduce (pat : Pattern) (width : Operand) (op : Lambda) (inputs : List (Operand × Name)) :
    (GroupStm.reduce pat width op inputs).lifted inside lift =
      .reduce (pat.lifted lift) width ⟨op.params.map (·.lifted lift), op.body.lifted inside lift, op.ret⟩ inputs := by
  cases lift with
  | none => rw [Pattern.lifted, map_lifted_none, map_lifted_none, map_lifted_none]; rfl
  | some l => rfl

theorem Binder.name_lifted (lift : Option Lift) (b : Binder) : (b.lifted lift).name = b.name := by
  cases lift <;> rfl

theorem Pattern.names_lifted (lift : Option Lift) (p : Pattern) : (p.lifted lift).names = p.names := by
  simp only [Pattern.lifted, Pattern.names, Pattern.binders, List.map_append, ArrayKernels.names_lifted]

theorem GroupStm.names_lifted (inside : List Name) (lift : Option Lift) (stm : GroupStm) :
    (stm.lifted inside lift).names = stm.names := by
  cases stm with
  | split size chunks division width perThread arrays =>
    rw [lifted_split, GroupStm.names, GroupStm.names, ArrayKernels.names_lifted, size.name_lifted]
  | thread pat only body => rw [lifted_thread, GroupStm.names, GroupStm.names, pat.names_lifted]
  | reduce pat width op inputs => rw [lifted_reduce, GroupStm.names, GroupStm.names, pat.names_lifted]

theorem GroupStm.count_lifted (inside : List Name) (lift : Option Lift) (stm : GroupStm) (v : Name) :
    (stm.lifted inside lift).bound.count v + ((liftedSites inside stm.allocSites).map AllocSite.name).count v = stm.bound.count v := by
  rw [GroupStm.bound_eq, GroupStm.names_lifted, GroupStm.bound_eq]
  cases stm with
  | split size chunks division width perThread arrays =>
    rw [lifted_split]
    rfl
  | thread pat only body =>
    have inner := body.count_lifted inside lift v
    simp only [lifted_thread, innerBound, GroupStm.allocSites, List.count_append]
    omega
  | reduce pat width op inputs =>
    have inner := op.body.count_lifted inside lift v
    simp only [lifted_reduce, innerBound, GroupStm.allocSites, Lambda.bound_eq, ArrayKernels.names_lifted, List.count_append]
    omega

theorem Binder.free_lifted {b : Binder} (placed : ∀ l ∈ lift, l.place.Within S) (h : InScope S b.free) : InScope S (b.lifted lift).free := by
  cases lift with
  | none => exact h
  | some l => exact b.free_rebased (placed l rfl) h

theorem BindersScoped.lifted {bs : List Binder} (placed : ∀ l ∈ lift, l.place.Within S) (h : BindersScoped S bs) :
    BindersScoped S (bs.map (·.lifted lift)) := by
  cases lift with
  | none => rwa [map_lifted_none]
  | some l => exact h.rebased (placed l rfl)

theorem Pattern.Scoped.lifted {p : Pattern} (placed : ∀ l ∈ lift, l.place.Within S) (h : p.Scoped S) : (p.lifted lift).Scoped S := by
  cases lift with
  | none => rwa [Pattern.lifted, map_lifted_none, map_lifted_none]
  | some l => exact h.rebased (placed l rfl)

theorem Lambda.Scoped.lifted {op : Lambda} {leading : Nat} (h : op.Scoped S leading) (more : ∀ v, S v → T v)
    (blocks : ∀ a ∈ liftedSites inside op.body.allocSites, T a.name) (placed : ∀ l ∈ lift, l.place.Within T) :
    Lambda.Scoped T leading ⟨op.params.map (·.lifted lift), op.body.lifted inside lift, op.ret⟩ := by
  obtain ⟨first, others, typed, body⟩ := op.scoped_iff.mp h
  have placed' (names : List Name) (l : Lift) (mem : l ∈ lift) : l.place.Within (T.bind names) := (placed l mem).mono fun _ => .inl
  have widen (names : List Name) (v : Name) (mem : S.bind names v) : T.bind names v := mem.imp_left (more v)
  refine (Lambda.scoped_iff _).mpr ⟨?_, fun b mem => ?_, ?_, ?_⟩
  · rw [← List.map_take]
    exact (first.mono more).lifted placed
  · rw [← List.map_drop] at mem
    obtain ⟨old, among, rfl⟩ := List.mem_map.mp mem
    rw [← List.map_take, names_lifted]
    exact Binder.free_lifted (placed' _) ((others old among).mono (widen _))
  · rw [← List.map_take, names_lifted]
    exact typed.mono (widen _)
  · rw [names_lifted]
    exact body.lifted (widen _) (fun a mem => .inl (blocks a mem)) (placed' _)

theorem GroupStm.Scoped.lifted {stm : GroupStm} (h : stm.Scoped S)
    (more : ∀ v, S v → T v) (blocks : ∀ a ∈ liftedSites inside stm.allocSites, T a.name) (placed : ∀ l ∈ lift, l.place.Within T) :
    (stm.lifted inside lift).Scoped T := by
  have placed' (names : List Name) (l : Lift) (mem : l ∈ lift) : l.place.Within (T.bind names) := (placed l mem).mono fun _ => .inl
  cases stm with
  | split size chunks division width perThread arrays =>
    obtain ⟨operands, typed⟩ := h
    have operands := operands.mono more
    rw [lifted_split]
    simp only [GroupStm.Scoped, InScope.union_iff, Binder.name_lifted] at operands ⊢
    refine ⟨⟨⟨⟨Binder.free_lifted placed operands.1.1.1, operands.1.1.2⟩, operands.1.2⟩, operands.2⟩, fun b mem => ?_⟩
    obtain ⟨old, among, rfl⟩ := List.mem_map.mp mem
    exact Binder.free_lifted (placed' _) ((typed old among).mono fun v mem => mem.imp_left (more v))
  | thread pat only body =>
    rw [lifted_thread]
    exact ⟨h.1.mono more, (h.2.1.mono more).lifted placed, h.2.2.lifted more blocks placed⟩
  | reduce pat width op inputs =>
    obtain ⟨operands, typed, inner⟩ := h
    rw [lifted_reduce]
    refine ⟨operands.mono more, (typed.mono more).lifted placed, ?_⟩
    exact inner.lifted more blocks placed

theorem GroupStmsScoped.lifted {after : NameSet} {stms : List GroupStm} (h : GroupStmsScoped S after stms) (more : ∀ v, S v → T v)
    (blocks : ∀ a ∈ liftedSites inside (stms.flatMap GroupStm.allocSites), T a.name) (placed : ∀ l ∈ lift, l.place.Within T) :
    GroupStmsScoped T after (stms.map (·.lifted inside lift)) := by
  induction stms generalizing S T with
  | nil => exact InScope.mono h more
  | cons stm stms ih =>
    rw [List.flatMap_cons, liftedSites_append] at blocks
    constructor
    · exact h.1.lifted more (fun a mem => blocks a (List.mem_append_left _ mem)) placed
    · rw [stm.names_lifted]
      refine ih h.2 (fun v mem => mem.imp_left (more v)) (fun a mem => .inl (blocks a (List.mem_append_right _ mem))) fun l mem => ?_
      exact (placed l mem).mono fun _ => .inl

theorem count_boundInGroupStms_lifted (inside : List Name) (lift : Option Lift) (stms : List GroupStm) (v : Name) :
    (boundInGroupStms (stms.map (·.lifted inside lift))).count v
      + ((liftedSites inside (stms.flatMap GroupStm.allocSites)).map AllocSite.name).count v = (boundInGroupStms stms).count v := by
  induction stms with
  | nil => rfl
  | cons stm stms ih =>
    have here := stm.count_lifted inside lift v
    simp only [List.map_cons, boundInGroupStms, List.flatMap_cons, liftedSites_append, List.map_append, List.count_append]
    omega

end

theorem GroupKernel.expand_moves {k : GroupKernel} {k' : Kernel} (made : (Kernel.group k).expand options s = .ok ((stms, k'), t))
    (inside : (Kernel.group k).Scoped S) (plain : (Kernel.group k).LiftsPlainly) :
    Moves S s.names.next t.names.next (Kernel.group k).bound stms k'.bound k'.Scoped := by
  obtain ⟨⟨drawn, lift⟩, r, lifts, made⟩ := Pass.bind_eq_ok.mp made
  obtain ⟨same, rfl⟩ := Pass.pure_eq_ok.mp made
  cases same
  obtain ⟨drew, placed⟩ := liftSites_eq_ok lifts
  obtain ⟨operands, body⟩ := (Kernel.scoped_group k).mp inside
  rw [Kernel.LiftsPlainly, Kernel.bound_group] at plain
  have counted : InScope S k.size.threads.free := k.size.inScope_threads (InScope.union_iff.mp (InScope.union_iff.mp operands).1).2
  have outside (a : AllocSite) (mem : a ∈ (Kernel.group k).lifted) : a.Within S := by
    obtain ⟨site, invariant⟩ := mem_liftedSites.mp mem
    have here := body.allocSites a site
    rw [← Scope.bind_append] at here
    refine here.leave invariant (fun v own => ?_) (plain a mem)
    rw [GroupBody.bound_eq]
    exact List.mem_append.mpr (List.mem_append.mp own).symm
  have moves := liftedStms_moves drew counted outside
  refine { moves with counts := fun v => ?_, after := fun T part => (Kernel.scoped_group _).mpr ⟨?_, ?_⟩ }
  · have count := moves.counts v
    have divided := count_boundInGroupStms_lifted (k.body.bound ++ k.space.names) lift k.body.stms v
    simp only [Kernel.bound_group, List.count_append, List.count_nil] at count ⊢
    omega
  · exact operands.mono fun v mem => part v (.inl mem)
  · have more (v : Name) (mem : S.bind k.space.names v) : T.bind k.space.names v := mem.imp_left fun visible => part v (.inl visible)
    refine body.lifted more (fun a mem => .inl (moves.after T part a mem)) fun l mem => ?_
    refine (threadPlace_within (placed l mem).1 ?_ ?_ : l.place.Within (S.bind k.space.names)).mono more
    · exact .inr List.mem_cons_self
    · exact counted.mono fun _ => .inl

/-- Expanding a kernel: the lifted blocks are allocated in front of it, and it is in scope behind them. -/
theorem Kernel.expand_moves {k k' : Kernel} (made : k.expand options s = .ok ((stms, k'), t)) (fits : Fits S s.names.next k.bound)
    (inside : k.Scoped S) (plain : k.LiftsPlainly) : Moves S s.names.next t.names.next k.bound stms k'.bound k'.Scoped := by
  cases k with
  | map k => exact k.expand_moves made fits inside plain
  | group k => exact k.expand_moves made inside plain
  | scan k =>
    obtain ⟨⟨first, combine⟩, r, madeCombine, made⟩ := Pass.bind_eq_ok.mp made
    obtain ⟨⟨second, fold⟩, r', madeFold, made⟩ := Pass.bind_eq_ok.mp made
    obtain ⟨same, rfl⟩ := Pass.pure_eq_ok.mp made
    cases same
    obtain ⟨operands, insideCombine, insideFold⟩ := (Kernel.scoped_scan k).mp inside
    have sized : InScope S k.size.free := by
      simp only [InScope.union_iff] at operands
      exact operands.1.1.2
    have counted := k.size.inScope_threads sized
    rw [Kernel.LiftsPlainly, Kernel.bound_scan] at plain
    rw [Kernel.bound_scan] at fits
    have movesCombine := Lambda.expand_moves madeCombine counted fits.left insideCombine fun a mem v free bound =>
      plain a (List.mem_append_left _ mem) v free (List.mem_append_left _ bound)
    have movesFold := Lambda.expand_moves madeFold counted (fits.right.later movesCombine.grows) insideFold fun a mem v free bound =>
      plain a (List.mem_append_right _ mem) v free (List.mem_append_right _ bound)
    rw [Kernel.bound_scan, Kernel.bound_scan]
    exact (movesCombine.append movesFold).imp fun T more both => (Kernel.scoped_scan _).mpr ⟨operands.mono more, both⟩
  | chunked k =>
    obtain ⟨⟨drawn, op⟩, r, madeOp, made⟩ := Pass.bind_eq_ok.mp made
    obtain ⟨same, rfl⟩ := Pass.pure_eq_ok.mp made
    cases same
    obtain ⟨operands, insideOp⟩ := (Kernel.scoped_chunked k).mp inside
    have counted := k.size.inScope_threads (InScope.union_iff.mp (InScope.union_iff.mp operands).1).2
    rw [Kernel.LiftsPlainly, Kernel.bound_chunked] at plain
    rw [Kernel.bound_chunked] at fits ⊢
    rw [Kernel.bound_chunked]
    refine (Lambda.expand_moves madeOp counted fits insideOp plain).imp fun T more op => ?_
    exact (Kernel.scoped_chunked _).mpr ⟨operands.mono more, op⟩
  | scatter k | numGroups | groupSize =>
    obtain ⟨same, rfl⟩ := Pass.pure_eq_ok.mp made
    cases same
    exact .stay _ fun T more => inside.mono more

end

/-! Host code -/

mutual

/-- The kernels that host code launches. -/
def Exp.hostKernels : Exp → List Kernel
  | .branch _ onTrue onFalse _ => onTrue.hostKernels ++ onFalse.hostKernels
  | .loop _ _ _ _ body => body.hostKernels
  | .launch k => [k]
  | _ => []

def hostKernelsIn : List Stm → List Kernel
  | [] => []
  | ⟨_, _, exp⟩ :: stms => exp.hostKernels ++ hostKernelsIn stms

def Body.hostKernels : Body → List Kernel
  | ⟨stms, _⟩ => hostKernelsIn stms

end

mutual

theorem Exp.expandHost_moves {options : ExpandOptions} : ∀ (e : Exp) {e' : Exp} {before : List Stm} {s t : ExpandState} {S : Scope},
    e.expandHost options s = .ok ((before, e'), t) → Fits S s.names.next e.bound → e.Scoped S →
    (∀ k ∈ e.hostKernels, k.LiftsPlainly) → Moves S s.names.next t.names.next e.bound before e'.bound e'.Scoped
  | .branch cond onTrue onFalse ret, e', before, s, t, S, made, fits, inside, plain => by
    obtain ⟨onTrue', r, madeTrue, made⟩ := Pass.bind_eq_ok.mp made
    obtain ⟨onFalse', r', madeFalse, made⟩ := Pass.bind_eq_ok.mp made
    obtain ⟨same, rfl⟩ := Pass.pure_eq_ok.mp made
    cases same
    have movesTrue := Body.expandHost_moves onTrue madeTrue fits.left inside.2.1 fun k mem => plain k (List.mem_append_left _ mem)
    have movesFalse := Body.expandHost_moves onFalse madeFalse (fits.right.later movesTrue.grows) inside.2.2
      fun k mem => plain k (List.mem_append_right _ mem)
    exact (movesTrue.append movesFalse).imp fun T more both => ⟨inside.1.mono more, both⟩
  | .loop context values index bound body, e', before, s, t, S, made, fits, inside, plain => by
    obtain ⟨body', r, madeBody, made⟩ := Pass.bind_eq_ok.mp made
    obtain ⟨same, rfl⟩ := Pass.pure_eq_ok.mp made
    cases same
    have moves := (Body.expandHost_moves body madeBody fits.enter inside.2.2 plain).leave fits fun _ mem => nomatch mem
    exact (moves.under _).imp fun T more body => ⟨inside.1.mono more, inside.2.1.mono more, body⟩
  | .launch k, e', before, s, t, S, made, fits, inside, plain => by
    obtain ⟨⟨drawn, k'⟩, r, madeKernel, made⟩ := Pass.bind_eq_ok.mp made
    obtain ⟨same, rfl⟩ := Pass.pure_eq_ok.mp made
    cases same
    exact Kernel.expand_moves madeKernel fits inside (plain k List.mem_cons_self)
  | .operand _, _, _, _, _, _, made, _, inside, _ | .binary .., _, _, _, _, _, made, _, inside, _
  | .compare .., _, _, _, _, _, made, _, inside, _ | .index .., _, _, _, _, _, made, _, inside, _
  | .update .., _, _, _, _, _, made, _, inside, _ | .iota .., _, _, _, _, _, made, _, inside, _
  | .replicate .., _, _, _, _, _, made, _, inside, _ | .reshape .., _, _, _, _, _, made, _, inside, _
  | .rearrange .., _, _, _, _, _, made, _, inside, _ | .copy _, _, _, _, _, _, made, _, inside, _
  | .alloc .., _, _, _, _, _, made, _, inside, _ => by
    obtain ⟨same, rfl⟩ := Pass.pure_eq_ok.mp made
    cases same
    exact .stay _ fun T more => inside.mono more

theorem expandHostStms_moves {options : ExpandOptions} {after : NameSet} : ∀ (stms : List Stm) {stms' : List Stm} {s t : ExpandState}
    {S : Scope}, expandHostStms options stms s = .ok (stms', t) → Fits S s.names.next (boundInStms stms) → StmsScoped S after stms →
    (∀ k ∈ hostKernelsIn stms, k.LiftsPlainly) →
    Moves S s.names.next t.names.next (boundInStms stms) [] (boundInStms stms') fun T => StmsScoped T after stms'
  | [], _, _, _, _, made, _, inside, _ => by
    obtain ⟨same, rfl⟩ := Pass.pure_eq_ok.mp made
    cases same
    exact .stay _ fun T more => InScope.mono inside more
  | ⟨pat, certs, exp⟩ :: stms, stms', s, t, S, made, fits, inside, plain => by
    obtain ⟨⟨before, exp'⟩, r, madeExp, made⟩ := Pass.bind_eq_ok.mp made
    obtain ⟨rest, r', madeRest, made⟩ := Pass.bind_eq_ok.mp made
    obtain ⟨same, rfl⟩ := Pass.pure_eq_ok.mp made
    cases same
    rw [boundInStms] at fits
    have moves := Moves.ofExp before (Exp.expandHost_moves exp madeExp fits.left.right inside.1.2.2
      fun k mem => plain k (List.mem_append_left _ mem)) inside.1.1 inside.1.2.1
    have entered : Fits S r.names.next (pat.names ++ boundInStms stms) := (fits.later moves.grows).part fun v => by
      simp only [List.count_append]
      omega
    have movesRest := expandHostStms_moves stms madeRest entered.enter inside.2 fun k mem => plain k (List.mem_append_right _ mem)
    have joined : before ++ ⟨pat, certs, exp'⟩ :: rest = (before ++ [⟨pat, certs, exp'⟩]) ++ rest := by
      rw [List.append_assoc, List.singleton_append]
    rw [joined]
    refine .inPlace (Nat.le_trans moves.grows movesRest.grows) (fun v => ?_) fun T more => StmsScoped.mono more ?_
    · have first := moves.counts v
      have second := movesRest.counts v
      have both := drawn_add moves.grows movesRest.grows v
      rw [boundInStms_append, boundInStms]
      simp only [boundInStms, List.count_append, List.count_nil] at first second ⊢
      omega
    · refine stmsScoped_append.mpr ⟨moves.before, movesRest.here.mono fun v mem => ?_⟩
      rcases mem with visible | own
      · exact .inl visible
      · exact moves.after _ (fun _ mem => mem) v own

theorem Body.expandHost_moves {options : ExpandOptions} : ∀ (body : Body) {body' : Body} {s t : ExpandState} {S : Scope},
    body.expandHost options s = .ok (body', t) → Fits S s.names.next body.bound → body.Scoped S →
    (∀ k ∈ body.hostKernels, k.LiftsPlainly) → Moves S s.names.next t.names.next body.bound [] body'.bound body'.Scoped
  | ⟨stms, result⟩, _, _, _, _, made, fits, inside, plain => by
    obtain ⟨stms', r, madeStms, made⟩ := Pass.bind_eq_ok.mp made
    obtain ⟨same, rfl⟩ := Pass.pure_eq_ok.mp made
    cases same
    exact expandHostStms_moves stms madeStms fits inside plain

end

end ArrayKernels
