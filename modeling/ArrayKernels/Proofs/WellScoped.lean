import ArrayKernels.Proofs.ExpandScoping
import ArrayKernels.Proofs.SweepScoping

/-! Well-scoped programs stay well-scoped: all binders of a function are distinct, every name is bound before it is mentioned,
and the supply has handed out all tags. Simplification keeps this, and expansion keeps it where the lifted blocks carry no
placements that mention names of their kernels. -/
namespace ArrayKernels

/-- The scope without names. -/
def Scope.none : Scope := fun _ => False

instance : DecidablePred Scope.none := fun _ => inferInstanceAs (Decidable False)

/-- Binders are distinct, names are bound before they are mentioned, and all tags are below `next`. -/
structure FunDecl.WellScoped (next : Nat) (f : FunDecl) : Prop where
  distinct : (f.params.map Binder.name ++ f.body.bound).Nodup
  below : ∀ v ∈ f.params.map Binder.name ++ f.body.bound, v.tag < next
  params : BindersScoped .none f.params
  returned : InScope (Scope.none.bind (f.params.map Binder.name)) (freeTypes f.ret)
  body : f.body.Scoped (Scope.none.bind (f.params.map Binder.name))

def Program.WellScoped (next : Nat) (p : Program) : Prop := ∀ f ∈ p.funs, f.WellScoped next

instance (next : Nat) (f : FunDecl) : Decidable (f.WellScoped next) :=
  decidable_of_iff ((f.params.map Binder.name ++ f.body.bound).Nodup ∧ (∀ v ∈ f.params.map Binder.name ++ f.body.bound, v.tag < next)
      ∧ BindersScoped .none f.params ∧ InScope (Scope.none.bind (f.params.map Binder.name)) (freeTypes f.ret)
      ∧ f.body.Scoped (Scope.none.bind (f.params.map Binder.name)))
    ⟨fun ⟨distinct, below, params, returned, body⟩ => ⟨distinct, below, params, returned, body⟩,
      fun h => ⟨h.distinct, h.below, h.params, h.returned, h.body⟩⟩

instance (next : Nat) (p : Program) : Decidable (p.WellScoped next) := inferInstanceAs (Decidable (∀ f ∈ p.funs, f.WellScoped next))

namespace FunDecl.WellScoped

variable {n n' : Nat} {f : FunDecl}

theorem fits (h : f.WellScoped n) : Fits .none n (f.params.map Binder.name ++ f.body.bound) :=
  ⟨fun _ visible => visible.elim, fun _ _ visible => visible, h.distinct, h.below⟩

theorem later (h : f.WellScoped n) (grows : n ≤ n') : f.WellScoped n' :=
  { h with below := fun v mem => Nat.lt_of_lt_of_le (h.below v mem) grows }

/-- A new body out of which nothing has moved. -/
theorem withBody (h : f.WellScoped n) {body : Body}
    (moves : Moves (Scope.none.bind (f.params.map Binder.name)) n n' f.body.bound [] body.bound body.Scoped) :
    ({ f with body } : FunDecl).WellScoped n' := by
  have inside : Moves .none n n' f.body.bound [] body.bound fun T => body.Scoped (T.bind (f.params.map Binder.name)) :=
    moves.leave h.fits fun _ mem => absurd mem List.not_mem_nil
  have fits := (inside.under (f.params.map Binder.name)).fits h.fits
  exact ⟨fits.distinct, fits.below, h.params, h.returned, moves.here⟩

end FunDecl.WellScoped

section
variable {s : Simplifier} {f f' : FunDecl} {p q : Progress}

theorem FunDecl.sweep_wellScoped (rules : s.rules.Scoping) (h : f.WellScoped p.names.next) (swept : f.sweep s p = .ok (f', q)) :
    p.names.next ≤ q.names.next ∧ f'.WellScoped q.names.next := by
  obtain ⟨⟨hoisted, body⟩, between, ran, swept⟩ := Pass.bind_eq_ok.mp swept
  dsimp only at swept
  split at swept
  · rename_i none
    obtain ⟨rfl, rfl⟩ := Pass.pure_eq_ok.mp swept
    obtain rfl := List.isEmpty_iff.mp none
    have known : (SymbolTable.empty.bindParams f.params).Within (Scope.none.bind (f.params.map Binder.name)) :=
      SymbolTable.within_empty.bindParams _
    have moves := (Simplifier.bodyTo_scoping rules f.body.depth).moves ran known h.fits.enter h.body
    exact ⟨moves.grows, h.withBody moves⟩
  · cases swept

theorem FunDecl.simplify_wellScoped (rules : s.rules.Scoping) {n : Nat} (h : f.WellScoped p.names.next)
    (simplified : f.simplify s n p = .ok (f', q)) : p.names.next ≤ q.names.next ∧ f'.WellScoped q.names.next := by
  induction n generalizing f p with
  | zero =>
    obtain ⟨rfl, rfl⟩ := Pass.pure_eq_ok.mp simplified
    exact ⟨Nat.le_refl _, h⟩
  | succ n ih =>
    obtain ⟨next, between, swept, simplified⟩ := Pass.bind_eq_ok.mp simplified
    obtain ⟨grows, next⟩ := sweep_wellScoped rules h swept
    split at simplified
    · obtain ⟨rfl, rfl⟩ := Pass.pure_eq_ok.mp simplified
      exact ⟨grows, next⟩
    · obtain ⟨grows', last⟩ := ih next simplified
      exact ⟨Nat.le_trans grows grows', last⟩

theorem simplifyAll_wellScoped (rules : s.rules.Scoping) {n : Nat} {funs funs' : List FunDecl}
    (h : ∀ f ∈ funs, f.WellScoped p.names.next) (simplified : funs.mapM (FunDecl.simplify s n) p = .ok (funs', q)) :
    p.names.next ≤ q.names.next ∧ ∀ f ∈ funs', f.WellScoped q.names.next := by
  induction funs generalizing p funs' with
  | nil =>
    obtain ⟨rfl, rfl⟩ := Pass.pure_eq_ok.mp simplified
    exact ⟨Nat.le_refl _, fun _ mem => absurd mem List.not_mem_nil⟩
  | cons f funs ih =>
    rw [List.mapM_cons] at simplified
    obtain ⟨f', between, first, simplified⟩ := Pass.bind_eq_ok.mp simplified
    obtain ⟨rest, last, others, simplified⟩ := Pass.bind_eq_ok.mp simplified
    obtain ⟨rfl, rfl⟩ := Pass.pure_eq_ok.mp simplified
    obtain ⟨grows, here⟩ := FunDecl.simplify_wellScoped rules (h f List.mem_cons_self) first
    obtain ⟨grows', later⟩ := ih (fun g mem => (h g (List.mem_cons_of_mem _ mem)).later grows) others
    refine ⟨Nat.le_trans grows grows', fun g mem => ?_⟩
    rcases List.mem_cons.mp mem with rfl | among
    · exact here.later grows'
    · exact later g among

end

theorem expandFuns_wellScoped {options : ExpandOptions} {funs funs' : List FunDecl} {s t : ExpandState}
    (h : ∀ f ∈ funs, f.WellScoped s.names.next) (plain : ∀ f ∈ funs, ∀ k ∈ f.body.hostKernels, k.LiftsPlainly)
    (expanded : expandFuns options funs s = .ok (funs', t)) :
    s.names.next ≤ t.names.next ∧ ∀ f ∈ funs', f.WellScoped t.names.next := by
  induction funs generalizing s funs' with
  | nil =>
    cases expanded
    exact ⟨Nat.le_refl _, fun _ mem => absurd mem List.not_mem_nil⟩
  | cons f funs ih =>
    obtain ⟨body, between, rest, made, others, rfl⟩ := expandFuns_cons expanded
    have first := h f List.mem_cons_self
    have moves := f.body.expandHost_moves made first.fits.enter first.body (plain f List.mem_cons_self)
    obtain ⟨grows, later⟩ := ih (fun g mem => (h g (List.mem_cons_of_mem _ mem)).later moves.grows)
      (fun g mem => plain g (List.mem_cons_of_mem _ mem)) others
    refine ⟨Nat.le_trans moves.grows grows, fun g mem => ?_⟩
    rcases List.mem_cons.mp mem with rfl | among
    · exact (first.withBody moves).later grows
    · exact later g among

/-- Adds up a number and the indices of threads that allocate a block; the block is bound with the given placement. -/
def sampleWithBlock (place : Option Placement) : Program :=
  let n : Name := ⟨"n", 0⟩
  let ys : Name := ⟨"ys", 1⟩
  let i : Name := ⟨"i", 3⟩
  let y : Name := ⟨"y", 6⟩
  let row : Ty := .array .i64 [.var n] false
  let body : Body :=
    ⟨[⟨⟨[], [⟨⟨"block", 4⟩, .mem (.word 8) .default, place⟩]⟩, [], .alloc (.word 8) .default⟩,
      .ofWord ⟨"k", 5⟩ (.binary .add (.var n) (.word 1)), .ofWord y (.binary .add (.var ⟨"k", 5⟩) (.var i))], [.var y]⟩
  let kernel : MapKernel := ⟨[], .var n, ⟨"t", 2⟩, [(i, .var n)], [], [(.scalar .i64, [0])], body⟩
  ⟨[⟨"main", [⟨n, .scalar .i64, none⟩, ⟨⟨"store", 7⟩, .mem (.var n) .default, none⟩], [row],
    ⟨[.single ys row (.launch (.map kernel))], [.var ys]⟩⟩]⟩

end ArrayKernels
