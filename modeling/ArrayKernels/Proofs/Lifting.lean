import ArrayKernels.Expand.AllocSite
import ArrayKernels.Proofs.Congruence

/-! The code of a thread without its lifted allocations. A lifted block is bound outside, with another
size, and from there on the code sees it earlier than before; nothing reads the size of a block, and
nothing reads a name before it is bound. -/
namespace ArrayKernels

/-- Blocks of memory may differ in size. -/
def Likeness.blurred : Likeness := ⟨True, False, False, False, False.elim⟩

theorem allocSite_eq_some {pat : Pattern} {e : Exp} {a : AllocSite} :
    allocSite pat e = some a ↔ pat = ⟨[], [a.block]⟩ ∧ e = .alloc a.size a.space := by
  obtain ⟨context, values⟩ := pat
  obtain ⟨block, size, space⟩ := a
  constructor
  · intro h
    unfold allocSite at h
    split at h
    · rename_i noContext oneValue
      dsimp only at noContext oneValue
      subst noContext oneValue
      cases h
      exact ⟨rfl, rfl⟩
    · cases h
  · rintro ⟨same, rfl⟩
    cases same
    rfl

theorem mem_liftedSites {inside : List Name} {sites : List AllocSite} {a : AllocSite} :
    a ∈ liftedSites inside sites ↔ a ∈ sites ∧ a.isVariant inside = false := by
  simp [liftedSites]

/-- The size of a lifted block does not depend on what is bound inside. -/
theorem AllocSite.size_outside {inside : List Name} {a : AllocSite} (invariant : a.isVariant inside = false) {v : Name}
    (free : v ∈ a.size.free) : v ∉ inside := by
  obtain ⟨block, size, space⟩ := a
  cases size with
  | const c => exact absurd free (NameSet.not_mem_empty v)
  | var w =>
    obtain rfl := NameSet.mem_singleton.mp free
    intro mem
    simp [isVariant, variantSize, Operand.asName, mem] at invariant

def AllocSite.name (a : AllocSite) : Name := a.block.name

mutual

theorem Exp.allocSites_sublist : ∀ e : Exp, (e.allocSites.map AllocSite.name).Sublist e.bound
  | .branch _ onTrue onFalse _ => by
    rw [Exp.allocSites, List.map_append]
    exact onTrue.allocSites_sublist.append onFalse.allocSites_sublist
  | .loop _ _ _ _ body => body.allocSites_sublist.trans (List.sublist_append_right _ _)
  | .operand _ | .binary .. | .compare .. | .index .. | .update .. | .iota .. | .replicate .. | .reshape ..
  | .rearrange .. | .copy _ | .alloc .. | .launch _ => List.nil_sublist _

theorem allocSitesIn_sublist : ∀ stms : List Stm, ((allocSitesIn stms).map AllocSite.name).Sublist (boundInStms stms)
  | [] => .slnil
  | ⟨pat, _, e⟩ :: stms => by
    have here : ((allocSite pat e).toList.map AllocSite.name).Sublist pat.names := by
      cases site : allocSite pat e with
      | none => exact List.nil_sublist _
      | some a =>
        rw [(allocSite_eq_some.mp site).1]
        exact .refl _
    rw [allocSitesIn, List.map_append, List.map_append]
    exact (here.append e.allocSites_sublist).append (allocSitesIn_sublist stms)

theorem Body.allocSites_sublist : ∀ body : Body, (body.allocSites.map AllocSite.name).Sublist body.bound
  | ⟨stms, _⟩ => allocSitesIn_sublist stms

end

theorem Exp.bound_of_allocSites {e : Exp} {a : AllocSite} (site : a ∈ e.allocSites) : a.block.name ∈ e.bound :=
  e.allocSites_sublist.subset (List.mem_map.mpr ⟨a, site, rfl⟩)

theorem boundInStms_of_allocSites {stms : List Stm} {a : AllocSite} (site : a ∈ allocSitesIn stms) :
    a.block.name ∈ boundInStms stms :=
  (allocSitesIn_sublist stms).subset (List.mem_map.mpr ⟨a, site, rfl⟩)

theorem Body.bound_of_allocSites (body : Body) {a : AllocSite} (site : a ∈ body.allocSites) : a.block.name ∈ body.bound :=
  body.allocSites_sublist.subset (List.mem_map.mpr ⟨a, site, rfl⟩)

theorem name_of_allocSite {pat : Pattern} {e : Exp} {a : AllocSite} (site : allocSite pat e = some a) :
    a.block.name ∈ pat.names := by
  rw [(allocSite_eq_some.mp site).1]
  exact List.mem_cons_self

theorem mem_allocSitesIn_cons {pat : Pattern} {certs : List Name} {e : Exp} {stms : List Stm} {a : AllocSite} :
    a ∈ allocSitesIn (⟨pat, certs, e⟩ :: stms) ↔ allocSite pat e = some a ∨ a ∈ e.allocSites ∨ a ∈ allocSitesIn stms := by
  rw [allocSitesIn, List.mem_append, List.mem_append, Option.mem_toList, or_assoc]

/-- What the parts of a sequence of statements with distinct binders bind is apart. -/
theorem boundInStms_apart {pat : Pattern} {certs : List Name} {e : Exp} {stms : List Stm}
    (nodup : (boundInStms (⟨pat, certs, e⟩ :: stms)).Nodup) :
    (∀ v ∈ e.bound, v ∉ pat.names) ∧ (∀ v ∈ boundInStms stms, v ∉ pat.names) ∧ ∀ v ∈ e.bound, v ∉ boundInStms stms := by
  rw [boundInStms, List.append_assoc, List.nodup_append] at nodup
  obtain ⟨_, rest, apart⟩ := nodup
  rw [List.nodup_append] at rest
  exact ⟨fun v mem bound => apart v bound v (List.mem_append_left _ mem) rfl,
    fun v mem bound => apart v bound v (List.mem_append_right _ mem) rfl, fun v mem bound => rest.2.2 v mem v bound rfl⟩

/-- The environments of a thread in the two runs: what is read has values that are alike, and what is
still to be bound has none, except that the lifted blocks are there already in the second. -/
structure LiftAgrees (inside : List Name) (reads : NameSet) (bound : List Name) (sites : List AllocSite) (e e' : Env) :
    Prop where
  agree : (congruence .blurred).Agree ⟨e, .none⟩ ⟨e', .none⟩ reads
  fresh : ∀ v ∈ bound, e.get? v = none
  fresh' : ∀ v ∈ bound, (∀ a ∈ liftedSites inside sites, a.block.name ≠ v) → e'.get? v = none
  sized : ∀ a ∈ liftedSites inside sites, ∃ n, e.word a.size = .ok n
  blocks : ∀ a ∈ liftedSites inside sites, ∃ n, e'.get? a.block.name = some (.mem n a.space)

namespace LiftAgrees

variable {inside : List Name} {reads : NameSet} {bound : List Name} {sites : List AllocSite} {e e' : Env}

/-- A part of the code that has its lifted blocks to itself. -/
theorem part (h : LiftAgrees inside reads bound sites e e') {reads' : NameSet} {bound' : List Name}
    {sites' : List AllocSite} (fewer : ∀ v ∈ reads', v ∈ reads) (inner : ∀ v ∈ bound', v ∈ bound)
    (less : ∀ a ∈ sites', a ∈ sites) (own : ∀ a ∈ sites, a.block.name ∈ bound' → a ∈ sites') :
    LiftAgrees inside reads' bound' sites' e e' where
  agree := h.agree.mono fewer
  fresh v mem := h.fresh v (inner v mem)
  fresh' v mem other := h.fresh' v (inner v mem) fun a lifted same => by
    obtain ⟨site, invariant⟩ := mem_liftedSites.mp lifted
    exact other a (mem_liftedSites.mpr ⟨own a site (same ▸ mem), invariant⟩) same
  sized a lifted := h.sized a (mem_liftedSites.mpr ((mem_liftedSites.mp lifted).imp_left (less a)))
  blocks a lifted := h.blocks a (mem_liftedSites.mpr ((mem_liftedSites.mp lifted).imp_left (less a)))

/-- New values for names that are bound inside, but not in the code itself. -/
theorem rebind {e₁ e₁' : Env} {vs : List Name} {reads' : NameSet} (h : LiftAgrees inside reads bound sites e e')
    (site : ∀ a ∈ sites, a.block.name ∈ bound) (mine : ∀ v ∈ vs, v ∈ inside) (apart : ∀ v ∈ bound, v ∉ vs)
    (given : ∀ v ∈ vs, Option.Rel (Value.Alike .blurred) (e₁.get? v) (e₁'.get? v))
    (kept : ∀ v, v ∉ vs → e₁.get? v = e.get? v ∧ e₁'.get? v = e'.get? v) (fewer : ∀ v ∈ reads', v ∉ vs → v ∈ reads) :
    LiftAgrees inside reads' bound sites e₁ e₁' where
  agree := by
    intro v mem
    show Option.Rel _ (e₁.get? v) (e₁'.get? v)
    by_cases new : v ∈ vs
    · exact given v new
    · rw [(kept v new).1, (kept v new).2]
      exact h.agree v (fewer v mem new)
  fresh v mem := (kept v (apart v mem)).1.trans (h.fresh v mem)
  fresh' v mem other := (kept v (apart v mem)).2.trans (h.fresh' v mem other)
  sized := by
    intro a lifted
    obtain ⟨n, sized⟩ := h.sized a lifted
    refine ⟨n, sized ▸ ?_⟩
    have same : e₁.operand a.size = e.operand a.size := by
      cases size : a.size with
      | const c => rfl
      | var v =>
        have outside : v ∉ inside := AllocSite.size_outside (mem_liftedSites.mp lifted).2 (by simp [size, Operand.free])
        exact Env.lookup_congr (kept v fun new => outside (mine v new)).1
    rw [Env.word, Env.word, Env.scalar, Env.scalar, same]
  blocks := by
    intro a lifted
    rw [(kept _ (apart _ (site a (mem_liftedSites.mp lifted).1))).2]
    exact h.blocks a lifted

theorem enter {e₁ e₁' : Env} {vs : List Name} {inner : NameSet} (h : LiftAgrees inside reads bound sites e e')
    (site : ∀ a ∈ sites, a.block.name ∈ bound) (mine : ∀ v ∈ vs, v ∈ inside) (apart : ∀ v ∈ bound, v ∉ vs)
    (entered : Entered .blurred vs e e' e₁ e₁') (fewer : ∀ v ∈ inner, v ∉ vs → v ∈ reads) :
    LiftAgrees inside inner bound sites e₁ e₁' := by
  refine h.rebind site mine apart (fun v mem => ?_) entered.kept fewer
  obtain ⟨x, y, left, right, alike⟩ := entered.given v mem
  rw [left, right]
  exact .some alike

theorem bindValues {pat : Pattern} {values values' : List Value} {inner : NameSet}
    (h : LiftAgrees inside (inner.without pat.names) bound sites e e') (site : ∀ a ∈ sites, a.block.name ∈ bound)
    (mine : ∀ v ∈ pat.names, v ∈ inside) (apart : ∀ v ∈ bound, v ∉ pat.names)
    (clean : ∀ v ∈ pat.names, Option.Rel (Value.Alike .blurred) (e.get? v) (e'.get? v))
    (alike : ValuesAlike .blurred values values') :
    Follows True (LiftAgrees inside inner bound sites) (e.bindValues pat values) (e'.bindValues pat values') := by
  refine (bindValues_follows alike).imp fun e₁ e₁' ran ran' bound => ?_
  refine h.rebind site mine apart (fun v mem => ?_) (fun v other => ?_) fun v mem other => ?_
  · obtain ⟨x, y, left, right, alike⟩ | ⟨left, right⟩ := bound v mem
    · rw [left, right]
      exact .some alike
    · rw [left, right]
      exact clean v mem
  · exact ⟨Env.bindValues_frame ran other, Env.bindValues_frame ran' other⟩
  · exact NameSet.mem_without.mpr ⟨mem, other⟩

section
variable {pat : Pattern} {certs : List Name} {exp : Exp} {stms : List Stm} {after : NameSet}

theorem ofExp (h : LiftAgrees inside (readsBefore after (⟨pat, certs, exp⟩ :: stms)) (boundInStms (⟨pat, certs, exp⟩ :: stms))
    (allocSitesIn (⟨pat, certs, exp⟩ :: stms)) e e') (nodup : (boundInStms (⟨pat, certs, exp⟩ :: stms)).Nodup) :
    LiftAgrees inside exp.reads exp.bound exp.allocSites e e' := by
  obtain ⟨apart, _, apartRest⟩ := boundInStms_apart nodup
  refine h.part (fun v mem => NameSet.mem_union.mpr (.inr mem)) (fun v mem => by simp [boundInStms, mem])
    (fun a mem => by simp [allocSitesIn, mem]) fun a mem bound => ?_
  obtain site | site | site := mem_allocSitesIn_cons.mp mem
  · exact absurd (name_of_allocSite site) (apart _ bound)
  · exact site
  · exact absurd (boundInStms_of_allocSites site) (apartRest _ bound)

theorem ofRest (h : LiftAgrees inside (readsBefore after (⟨pat, certs, exp⟩ :: stms)) (boundInStms (⟨pat, certs, exp⟩ :: stms))
    (allocSitesIn (⟨pat, certs, exp⟩ :: stms)) e e') (nodup : (boundInStms (⟨pat, certs, exp⟩ :: stms)).Nodup) :
    LiftAgrees inside ((readsBefore after stms).without pat.names) (boundInStms stms) (allocSitesIn stms) e e' := by
  obtain ⟨_, apart, apartRest⟩ := boundInStms_apart nodup
  refine h.part (fun v mem => NameSet.mem_union.mpr (.inl mem)) (fun v mem => by simp [boundInStms, mem])
    (fun a mem => by simp [allocSitesIn, mem]) fun a mem bound => ?_
  obtain site | site | site := mem_allocSitesIn_cons.mp mem
  · exact absurd (name_of_allocSite site) (apart _ bound)
  · exact absurd bound (apartRest _ (exp.bound_of_allocSites site))
  · exact site

/-- A statement that stays binds names that have no value. -/
theorem cleanPattern (h : LiftAgrees inside (readsBefore after (⟨pat, certs, exp⟩ :: stms))
    (boundInStms (⟨pat, certs, exp⟩ :: stms)) (allocSitesIn (⟨pat, certs, exp⟩ :: stms)) e e')
    (nodup : (boundInStms (⟨pat, certs, exp⟩ :: stms)).Nodup)
    (stays : ∀ a, allocSite pat exp = some a → a.isVariant inside = true) {v : Name} (mem : v ∈ pat.names) :
    Option.Rel (Value.Alike .blurred) (e.get? v) (e'.get? v) := by
  obtain ⟨apart, apartRest, _⟩ := boundInStms_apart nodup
  rw [h.fresh v (by simp [boundInStms, mem]), h.fresh' v (by simp [boundInStms, mem]) fun a lifted same => ?_]
  · exact .none
  · obtain ⟨site, invariant⟩ := mem_liftedSites.mp lifted
    subst same
    obtain site | site | site := mem_allocSitesIn_cons.mp site
    · exact Bool.noConfusion (invariant.symm.trans (stays a site))
    · exact apart _ (exp.bound_of_allocSites site) mem
    · exact apartRest _ (boundInStms_of_allocSites site) mem

end

end LiftAgrees

mutual

theorem Exp.withoutLifted_follows {inside : List Name} : ∀ (e : Exp) {env env' : Env}, e.bound.Nodup →
    (∀ v ∈ e.bound, v ∈ inside) → LiftAgrees inside e.reads e.bound e.allocSites env env' →
    Follows True (ValuesAlike .blurred) (e.eval env) ((e.withoutLifted inside).eval env')
  | .branch cond onTrue onFalse _, env, env', nodup, mine, agrees => by
    rw [Exp.bound, List.nodup_append] at nodup
    rw [Exp.withoutLifted, Exp.eval, Exp.eval]
    have condition : Follows True (Value.Alike .blurred) (env.operand cond) (env'.operand cond) :=
      agrees.agree.operand fun v mem => by simp [Exp.reads, mem]
    refine (Env.scalar_follows condition).bind fun c _ _ _ same => ?_
    subst same
    match c with
    | .bool true =>
      refine onTrue.withoutLifted_follows nodup.1 (fun v mem => mine v (List.mem_append_left _ mem))
        (agrees.part (fun v mem => by simp [Exp.reads, mem]) (fun v => List.mem_append_left _)
          (fun a => List.mem_append_left _) fun a site bound => ?_)
      exact (List.mem_append.mp site).resolve_right fun other =>
        nodup.2.2 _ bound _ (onFalse.bound_of_allocSites other) rfl
    | .bool false =>
      refine onFalse.withoutLifted_follows nodup.2.1 (fun v mem => mine v (List.mem_append_right _ mem))
        (agrees.part (fun v mem => by simp [Exp.reads, mem]) (fun v => List.mem_append_right _)
          (fun a => List.mem_append_right _) fun a site bound => ?_)
      exact (List.mem_append.mp site).resolve_left fun other =>
        nodup.2.2 _ (onTrue.bound_of_allocSites other) _ bound rfl
    | .i32 _ | .i64 _ | .f32 _ | .f64 _ => exact .error _ _
  | .loop context values index bound body, env, env', nodup, mine, agrees => by
    rw [Exp.bound, List.nodup_append] at nodup
    rw [Exp.withoutLifted, Exp.eval, Exp.eval]
    refine Follows.bind (?_ : Follows True (ValuesAlike .blurred) _ _) fun init init' started _ alike => ?_
    · refine .mapM (List.forall₂_same.mpr fun p mem => agrees.agree.operand fun v free => ?_)
      simp only [Exp.reads, NameSet.mem_union]
      exact .inl (.inr (NameSet.mem_gather.mpr ⟨p.2, List.mem_map_of_mem mem, free⟩))
    refine (Env.word_follows (agrees.agree.operand fun v mem => by simp [Exp.reads, mem])).bind fun n _ _ _ same => ?_
    subst same
    have complete : init.length = ((context ++ values).map (·.1.name)).length := by
      rw [List.length_map]
      exact (mapM_eq_ok.mp started).length_eq.symm
    have inner : LiftAgrees inside (Exp.loop context values index bound body).reads body.bound body.allocSites env env' :=
      agrees.part (fun v mem => mem) (fun v => List.mem_append_right _) (fun a mem => mem) fun a mem _ => mem
    refine loop_follows alike complete fun i now now' _ _ _ entered => ?_
    refine body.withoutLifted_follows nodup.2.1 (fun v mem => mine v (List.mem_append_right _ mem))
      (inner.enter (fun a => body.bound_of_allocSites) (fun v mem => mine v (List.mem_append_left _ mem))
        (fun v mem param => nodup.2.2 v param v mem rfl) entered fun v mem other => ?_)
    simp only [Exp.reads, NameSet.mem_union]
    exact .inl (.inl (NameSet.mem_without.mpr ⟨mem, other⟩))
  | .launch kernel, env, env', nodup, _, agrees => by
    have clean : (congruence .blurred).Clean ⟨env, .none⟩ ⟨env', .none⟩ kernel.bound :=
      fun v mem => ⟨agrees.fresh v mem, agrees.fresh' v mem fun a site => nomatch site⟩
    have fine : (congruence .blurred).Fine ⟨env, .none⟩ ⟨env', .none⟩ ⟨⟨[], []⟩, [], .launch kernel⟩ :=
      ⟨fun _ => trivial, fun _ => trivial⟩
    have follows := Simulation.kernel_follows congruence.lawful kernel nodup agrees.agree clean fine
      ⟨fun _ _ _ _ _ _ _ => trivial, fun _ _ _ _ _ _ _ => trivial⟩
    rwa [Kernel.run_strict, Kernel.run_strict] at follows
  | .operand _, _, _, _, _, agrees | .binary .., _, _, _, _, agrees | .compare .., _, _, _, _, agrees
  | .index .., _, _, _, _, agrees | .update .., _, _, _, _, agrees | .iota .., _, _, _, _, agrees
  | .replicate .., _, _, _, _, agrees | .reshape .., _, _, _, _, agrees | .rearrange .., _, _, _, _, agrees
  | .copy _, _, _, _, _, agrees | .alloc .., _, _, _, _, agrees => (agrees.agree.renamed rfl).eval_follows

theorem stmsWithoutLifted_follow {inside : List Name} : ∀ (stms : List Stm) {after : NameSet} {env env' : Env},
    (boundInStms stms).Nodup → (∀ v ∈ boundInStms stms, v ∈ inside) →
    LiftAgrees inside (readsBefore after stms) (boundInStms stms) (allocSitesIn stms) env env' →
    Follows True (fun e e' => (congruence .blurred).Agree ⟨e, .none⟩ ⟨e', .none⟩ after) (evalStms env stms)
      (evalStms env' (stmsWithoutLifted inside stms))
  | [], _, _, _, _, _, agrees => .ok agrees.agree
  | ⟨pat, certs, e⟩ :: stms, after, env, env', nodup, mine, agrees => by
    have rest := agrees.ofRest nodup
    have minePat (v : Name) (mem : v ∈ pat.names) : v ∈ inside := mine v (by simp [boundInStms, mem])
    have mineRest (v : Name) (mem : v ∈ boundInStms stms) : v ∈ inside := mine v (by simp [boundInStms, mem])
    have apartRest := (boundInStms_apart nodup).2.1
    have distinct := nodup
    rw [boundInStms, List.append_assoc, List.nodup_append, List.nodup_append] at distinct
    have kept (stays : ∀ a, allocSite pat e = some a → a.isVariant inside = true) :
        Follows True (fun e e' => (congruence .blurred).Agree ⟨e, .none⟩ ⟨e', .none⟩ after)
          (evalStms env (⟨pat, certs, e⟩ :: stms))
          (evalStms env' (⟨pat, certs, e.withoutLifted inside⟩ :: stmsWithoutLifted inside stms)) := by
      rw [evalStms, evalStms]
      refine (e.withoutLifted_follows distinct.2.1.1 (fun v mem => mine v (by simp [boundInStms, mem]))
        (agrees.ofExp nodup)).bind fun vs vs' _ _ alike => ?_
      refine (rest.bindValues (fun a => boundInStms_of_allocSites) minePat apartRest
        (fun v => agrees.cleanPattern nodup stays) alike).bind fun e₁ e₁' _ _ agrees => ?_
      exact stmsWithoutLifted_follow stms distinct.2.1.2.1 mineRest agrees
    rw [stmsWithoutLifted]
    cases site : allocSite pat e with
    | none => exact kept fun a found => nomatch site.symm.trans found
    | some a =>
      obtain ⟨rfl, rfl⟩ := allocSite_eq_some.mp site
      cases variant : a.isVariant inside with
      | true =>
        simp only [variant, if_true]
        refine kept fun b found => ?_
        cases site.symm.trans found
        exact variant
      | false =>
        simp only [variant, Bool.false_eq_true, if_false]
        obtain ⟨n, sized⟩ := agrees.sized a (mem_liftedSites.mpr ⟨mem_allocSitesIn_cons.mpr (.inl site), variant⟩)
        obtain ⟨m, block⟩ := agrees.blocks a (mem_liftedSites.mpr ⟨mem_allocSitesIn_cons.mpr (.inl site), variant⟩)
        have ran : evalStms env (⟨⟨[], [a.block]⟩, certs, .alloc a.size a.space⟩ :: stms) =
            evalStms (env.bind a.block.name (.mem n a.space)) stms := by
          rw [evalStms, Exp.eval, sized]
          rfl
        rw [ran]
        refine stmsWithoutLifted_follow stms distinct.2.1.2.1 mineRest
          (rest.rebind (fun a => boundInStms_of_allocSites) minePat apartRest (fun v mem => ?_) (fun v other => ⟨?_, rfl⟩)
            fun v mem other => NameSet.mem_without.mpr ⟨mem, other⟩)
        · obtain rfl := List.mem_singleton.mp mem
          rw [Env.get?_bind, if_pos rfl, block]
          exact .some (.mem (.inr trivial))
        · rw [Env.get?_bind, if_neg fun same => other (List.mem_singleton.mpr same)]

theorem Body.withoutLifted_follows {inside : List Name} : ∀ (body : Body) {env env' : Env}, body.bound.Nodup →
    (∀ v ∈ body.bound, v ∈ inside) → LiftAgrees inside body.reads body.bound body.allocSites env env' →
    Follows True (ValuesAlike .blurred) (body.eval env) ((body.withoutLifted inside).eval env')
  | ⟨stms, result⟩, env, env', nodup, mine, agrees => by
    rw [Body.withoutLifted, Body.eval, Body.eval]
    refine (stmsWithoutLifted_follow stms nodup mine agrees).bind fun e e' _ _ agree => ?_
    exact Env.operands_follow (agree.operands fun v mem => mem)

end

end ArrayKernels
