import ArrayKernels.Proofs.Reads

/-! Code in its scope: every name that it mentions is bound before, outside or in the code itself. Operands,
certificates, types and memory placements count alike. Scoping is kept when the scope shrinks to the names
that the code mentions. -/
namespace ArrayKernels

attribute [grind =] NameSet.mem_union NameSet.mem_without

/-- The names that code may mention. -/
abbrev Scope := Name → Prop

/-- The scope behind a binding of the names. -/
abbrev Scope.bind (S : Scope) (names : List Name) : Scope := fun v => S v ∨ v ∈ names

namespace Scope

variable {S : Scope}

theorem bind_nil : S.bind [] = S := by
  funext v
  simp [bind]

theorem bind_append (a b : List Name) : S.bind (a ++ b) = (S.bind a).bind b := by
  funext v
  simp [bind, or_assoc]

theorem bind_comm (a b : List Name) : (S.bind a).bind b = (S.bind b).bind a := by
  funext v
  simp only [bind, or_right_comm]

end Scope

/-- All the names are in scope. -/
def InScope (S : Scope) (vs : NameSet) : Prop := ∀ v ∈ vs, S v

namespace InScope

variable {S T : Scope} {vs ws : NameSet}

@[simp] theorem empty : InScope S ∅ := fun v mem => absurd mem (NameSet.not_mem_empty v)

@[simp] theorem union_iff : InScope S (vs ∪ ws) ↔ InScope S vs ∧ InScope S ws := by
  simp only [InScope, NameSet.mem_union, or_imp, forall_and]

@[simp] theorem singleton_iff {v : Name} : InScope S {v} ↔ S v := by
  simp only [InScope, NameSet.mem_singleton, forall_eq]

theorem gather_iff {α : Type} {f : α → NameSet} {xs : List α} : InScope S (NameSet.gather f xs) ↔ ∀ x ∈ xs, InScope S (f x) := by
  simp only [InScope, NameSet.mem_gather, forall_exists_index, and_imp]
  exact ⟨fun h x mem v free => h v x mem free, fun h v x mem free => h x mem v free⟩

theorem mono (h : InScope S vs) (more : ∀ v, S v → T v) : InScope T vs := fun v mem => more v (h v mem)

theorem part (h : InScope S vs) (less : ∀ v ∈ ws, v ∈ vs) : InScope S ws := fun v mem => h v (less v mem)

end InScope

/-- The sizes that a launch reads. -/
theorem InScope.launched {S : Scope} {size : LaunchSize} (h : InScope S size.free) :
    InScope S (size.threads.free ∪ size.groupSize.free ∪ size.chunk.free) := by
  have part (x : Operand) (among : x ∈ size.operands) : InScope S x.free := h.part fun v mem => NameSet.mem_gather.mpr ⟨x, among, mem⟩
  simp only [InScope.union_iff]
  exact ⟨⟨part _ (by simp [LaunchSize.operands]), part _ (by simp [LaunchSize.operands])⟩, part _ (by simp [LaunchSize.operands])⟩

/-- The annotation of each binder mentions names of the scope and of the binders before it. -/
def BindersScoped (S : Scope) : List Binder → Prop
  | [] => True
  | b :: bs => InScope S b.free ∧ BindersScoped (S.bind [b.name]) bs

/-- The annotations of the values may mention the context. -/
def Pattern.Scoped (S : Scope) (p : Pattern) : Prop :=
  BindersScoped S p.context ∧ ∀ b ∈ p.values, InScope (S.bind (p.context.map Binder.name)) b.free

mutual

def Exp.Scoped (S : Scope) : Exp → Prop
  | .branch cond onTrue onFalse ret => InScope S (cond.free ∪ freeTypes ret) ∧ onTrue.Scoped S ∧ onFalse.Scoped S
  | .loop context values index bound body =>
    InScope S (freeOperands ((context ++ values).map Prod.snd) ∪ bound.free) ∧ BindersScoped S ((context ++ values).map Prod.fst)
      ∧ body.Scoped (S.bind ((context ++ values).map (·.1.name) ++ [index]))
  | .launch kernel => kernel.Scoped S
  | e => InScope S e.free

/-- Each statement mentions names of the scope and of the statements before it, and so do the names in `after`. -/
def StmsScoped (S : Scope) (after : NameSet) : List Stm → Prop
  | [] => InScope S after
  | ⟨pat, certs, exp⟩ :: stms =>
    (InScope S (freeNames certs) ∧ pat.Scoped S ∧ exp.Scoped S) ∧ StmsScoped (S.bind pat.names) after stms

def Body.Scoped (S : Scope) : Body → Prop
  | ⟨stms, result⟩ => StmsScoped S (freeOperands result) stms

/-- The annotations of an operator may mention its first parameters, of which there are `leading`. -/
def Lambda.Scoped (S : Scope) (leading : Nat) : Lambda → Prop
  | ⟨params, body, ret⟩ =>
    BindersScoped S (params.take leading)
      ∧ (∀ b ∈ params.drop leading, InScope (S.bind ((params.take leading).map Binder.name)) b.free)
      ∧ InScope (S.bind ((params.take leading).map Binder.name)) (freeTypes ret)
      ∧ body.Scoped (S.bind (params.map Binder.name))

/-- The inputs of a map kernel may mention the thread and its point of the space. An operator starts with the number of
the element or thread, and that of a chunked kernel goes on with the number of rows. -/
def Kernel.Scoped (S : Scope) : Kernel → Prop
  | .map ⟨certs, width, thread, space, inputs, returns, body⟩ =>
    InScope S (freeNames certs ∪ width.free ∪ freeOperands (space.map Prod.snd) ∪ freeTypes (returns.map Prod.fst))
      ∧ (∀ i ∈ inputs, InScope (S.bind (thread :: space.map Prod.fst)) i.free)
      ∧ body.Scoped (S.bind (thread :: space.map Prod.fst ++ inputs.map fun i => i.param.name))
  | .scan ⟨certs, width, size, combine, fold, neutral, arrays⟩ =>
    InScope S (freeNames certs ∪ width.free ∪ size.free ∪ freeOperands neutral ∪ freeNames arrays)
      ∧ combine.Scoped S 1 ∧ fold.Scoped S 1
  | .chunked ⟨certs, width, size, _, op, arrays⟩ =>
    InScope S (freeNames certs ∪ width.free ∪ size.free ∪ freeNames arrays) ∧ op.Scoped S 2
  | .scatter ⟨certs, width, op, arrays, dests⟩ =>
    InScope S (freeNames certs ∪ width.free ∪ freeNames arrays ∪ NameSet.gather (fun d => d.1.free ∪ {d.2}) dests)
      ∧ op.Scoped S 1
  | .group ⟨certs, size, space, returns, body⟩ =>
    InScope S (freeNames certs ∪ size.free ∪ freeTypes returns) ∧ body.Scoped (S.bind space.names)
  | .numGroups => True
  | .groupSize => True

/-- The chunks of a division may mention the number of rows. -/
def GroupStm.Scoped (S : Scope) : GroupStm → Prop
  | .split size chunks _ width perThread arrays =>
    InScope S (size.free ∪ width.free ∪ perThread.free ∪ freeNames arrays)
      ∧ ∀ b ∈ chunks, InScope (S.bind [size.name]) b.free
  | .thread pat only body => InScope S (freeOperands only.toList) ∧ pat.Scoped S ∧ body.Scoped S
  | .reduce pat width op inputs =>
    InScope S (width.free ∪ NameSet.gather (fun i => i.1.free ∪ {i.2}) inputs) ∧ pat.Scoped S ∧ op.Scoped S 1

def GroupStmsScoped (S : Scope) (after : NameSet) : List GroupStm → Prop
  | [] => InScope S after
  | stm :: stms => stm.Scoped S ∧ GroupStmsScoped (S.bind stm.names) after stms

def GroupBody.Scoped (S : Scope) : GroupBody → Prop
  | ⟨stms, result⟩ => GroupStmsScoped S (NameSet.gather GroupResult.free result) stms

end

/-! Scoping can be decided -/

instance {S : Scope} [DecidablePred S] (names : List Name) : DecidablePred (S.bind names) :=
  fun v => inferInstanceAs (Decidable (S v ∨ v ∈ names))

instance {S : Scope} [DecidablePred S] (vs : NameSet) : Decidable (InScope S vs) :=
  inferInstanceAs (Decidable (∀ v ∈ vs.toList, S v))

def BindersScoped.decide (S : Scope) [DecidablePred S] : (bs : List Binder) → Decidable (BindersScoped S bs)
  | [] => inferInstanceAs (Decidable True)
  | b :: bs =>
    have := decide (S.bind [b.name]) bs
    inferInstanceAs (Decidable (InScope S b.free ∧ BindersScoped (S.bind [b.name]) bs))

instance {S : Scope} [DecidablePred S] (bs : List Binder) : Decidable (BindersScoped S bs) := BindersScoped.decide S bs

instance {S : Scope} [DecidablePred S] (p : Pattern) : Decidable (p.Scoped S) :=
  inferInstanceAs (Decidable (_ ∧ ∀ b ∈ p.values, InScope (S.bind (p.context.map Binder.name)) b.free))

mutual

def Exp.decideScoped (S : Scope) [DecidablePred S] : (e : Exp) → Decidable (e.Scoped S)
  | .branch cond onTrue onFalse ret =>
    have := onTrue.decideScoped S
    have := onFalse.decideScoped S
    inferInstanceAs (Decidable (InScope S (cond.free ∪ freeTypes ret) ∧ onTrue.Scoped S ∧ onFalse.Scoped S))
  | .loop context values index bound body =>
    have := body.decideScoped (S.bind ((context ++ values).map (·.1.name) ++ [index]))
    inferInstanceAs (Decidable (InScope S (freeOperands ((context ++ values).map Prod.snd) ∪ bound.free) ∧ BindersScoped S _ ∧ body.Scoped _))
  | .launch kernel => kernel.decideScoped S
  | .operand x => inferInstanceAs (Decidable (InScope S (Exp.operand x).free))
  | .binary op x y => inferInstanceAs (Decidable (InScope S (Exp.binary op x y).free))
  | .compare op x y => inferInstanceAs (Decidable (InScope S (Exp.compare op x y).free))
  | .index array indices => inferInstanceAs (Decidable (InScope S (Exp.index array indices).free))
  | .update array indices value => inferInstanceAs (Decidable (InScope S (Exp.update array indices value).free))
  | .iota count start stride => inferInstanceAs (Decidable (InScope S (Exp.iota count start stride).free))
  | .replicate shape value => inferInstanceAs (Decidable (InScope S (Exp.replicate shape value).free))
  | .reshape shape array => inferInstanceAs (Decidable (InScope S (Exp.reshape shape array).free))
  | .rearrange perm array => inferInstanceAs (Decidable (InScope S (Exp.rearrange perm array).free))
  | .copy array => inferInstanceAs (Decidable (InScope S (Exp.copy array).free))
  | .alloc size space => inferInstanceAs (Decidable (InScope S (Exp.alloc size space).free))

def StmsScoped.decide (S : Scope) [DecidablePred S] (after : NameSet) : (stms : List Stm) → Decidable (StmsScoped S after stms)
  | [] => inferInstanceAs (Decidable (InScope S after))
  | ⟨pat, certs, exp⟩ :: stms =>
    have := exp.decideScoped S
    have := StmsScoped.decide (S.bind pat.names) after stms
    inferInstanceAs (Decidable ((InScope S (freeNames certs) ∧ pat.Scoped S ∧ exp.Scoped S) ∧ StmsScoped (S.bind pat.names) after stms))

def Body.decideScoped (S : Scope) [DecidablePred S] : (body : Body) → Decidable (body.Scoped S)
  | ⟨stms, result⟩ => StmsScoped.decide S (freeOperands result) stms

def Lambda.decideScoped (S : Scope) [DecidablePred S] (leading : Nat) : (op : Lambda) → Decidable (op.Scoped S leading)
  | ⟨params, body, ret⟩ =>
    have := body.decideScoped (S.bind (params.map Binder.name))
    inferInstanceAs (Decidable (BindersScoped S (params.take leading)
      ∧ (∀ b ∈ params.drop leading, InScope (S.bind ((params.take leading).map Binder.name)) b.free)
      ∧ InScope (S.bind ((params.take leading).map Binder.name)) (freeTypes ret) ∧ body.Scoped _))

def Kernel.decideScoped (S : Scope) [DecidablePred S] : (k : Kernel) → Decidable (k.Scoped S)
  | .map ⟨certs, width, thread, space, inputs, returns, body⟩ =>
    have := body.decideScoped (S.bind (thread :: space.map Prod.fst ++ inputs.map fun i => i.param.name))
    inferInstanceAs (Decidable (InScope S (freeNames certs ∪ width.free ∪ freeOperands (space.map Prod.snd) ∪ freeTypes (returns.map Prod.fst))
      ∧ (∀ i ∈ inputs, InScope (S.bind (thread :: space.map Prod.fst)) i.free) ∧ body.Scoped _))
  | .scan ⟨certs, width, size, combine, fold, neutral, arrays⟩ =>
    have := combine.decideScoped S 1
    have := fold.decideScoped S 1
    inferInstanceAs (Decidable (InScope S (freeNames certs ∪ width.free ∪ size.free ∪ freeOperands neutral ∪ freeNames arrays)
      ∧ combine.Scoped S 1 ∧ fold.Scoped S 1))
  | .chunked ⟨certs, width, size, _, op, arrays⟩ =>
    have := op.decideScoped S 2
    inferInstanceAs (Decidable (InScope S (freeNames certs ∪ width.free ∪ size.free ∪ freeNames arrays) ∧ op.Scoped S 2))
  | .scatter ⟨certs, width, op, arrays, dests⟩ =>
    have := op.decideScoped S 1
    inferInstanceAs (Decidable (InScope S (freeNames certs ∪ width.free ∪ freeNames arrays ∪
      NameSet.gather (fun d => d.1.free ∪ {d.2}) dests) ∧ op.Scoped S 1))
  | .group ⟨certs, size, space, returns, body⟩ =>
    have := body.decideScoped (S.bind space.names)
    inferInstanceAs (Decidable (InScope S (freeNames certs ∪ size.free ∪ freeTypes returns) ∧ body.Scoped (S.bind space.names)))
  | .numGroups => inferInstanceAs (Decidable True)
  | .groupSize => inferInstanceAs (Decidable True)

def GroupStm.decideScoped (S : Scope) [DecidablePred S] : (stm : GroupStm) → Decidable (stm.Scoped S)
  | .split size chunks _ width perThread arrays =>
    inferInstanceAs (Decidable (InScope S (size.free ∪ width.free ∪ perThread.free ∪ freeNames arrays)
      ∧ ∀ b ∈ chunks, InScope (S.bind [size.name]) b.free))
  | .thread pat only body =>
    have := body.decideScoped S
    inferInstanceAs (Decidable (InScope S (freeOperands only.toList) ∧ pat.Scoped S ∧ body.Scoped S))
  | .reduce pat width op inputs =>
    have := op.decideScoped S 1
    inferInstanceAs (Decidable (InScope S (width.free ∪ NameSet.gather (fun i => i.1.free ∪ {i.2}) inputs) ∧ pat.Scoped S ∧ op.Scoped S 1))

def GroupStmsScoped.decide (S : Scope) [DecidablePred S] (after : NameSet) :
    (stms : List GroupStm) → Decidable (GroupStmsScoped S after stms)
  | [] => inferInstanceAs (Decidable (InScope S after))
  | stm :: stms =>
    have := stm.decideScoped S
    have := GroupStmsScoped.decide (S.bind stm.names) after stms
    inferInstanceAs (Decidable (stm.Scoped S ∧ GroupStmsScoped (S.bind stm.names) after stms))

def GroupBody.decideScoped (S : Scope) [DecidablePred S] : (body : GroupBody) → Decidable (body.Scoped S)
  | ⟨stms, result⟩ => GroupStmsScoped.decide S (NameSet.gather GroupResult.free result) stms

end

instance {S : Scope} [DecidablePred S] (k : Kernel) : Decidable (k.Scoped S) := k.decideScoped S

instance {S : Scope} [DecidablePred S] (body : Body) : Decidable (body.Scoped S) := body.decideScoped S

/-- What a statement mentions is in scope. -/
def Stm.Scoped (S : Scope) (stm : Stm) : Prop := InScope S (freeNames stm.certs) ∧ stm.pat.Scoped S ∧ stm.exp.Scoped S

/-! Narrowing -/

/-- The second scope has all names of the first that are free or bound in a piece of code. -/
def Covers (S T : Scope) (free : NameSet) (bound : List Name) : Prop := ∀ v, S v → v ∈ free ∨ v ∈ bound → T v

namespace Covers

variable {S T : Scope} {free free' : NameSet} {bound bound' names : List Name}

theorem of_le (more : ∀ v, S v → T v) : Covers S T free bound := fun v mem _ => more v mem

theorem part (h : Covers S T free bound) (less : ∀ v ∈ free', v ∈ free ∨ v ∈ bound) (inside : ∀ v ∈ bound', v ∈ bound) :
    Covers S T free' bound' := by
  intro v mem mentioned
  refine h v mem ?_
  rcases mentioned with here | here
  · exact less v here
  · exact .inr (inside v here)

/-- Code behind a binding of the names. -/
theorem enter (h : Covers S T free bound) (less : ∀ v ∈ free', v ∉ names → v ∈ free ∨ v ∈ bound)
    (inside : ∀ v ∈ bound', v ∈ bound) : Covers (S.bind names) (T.bind names) free' bound' := by
  intro v mem mentioned
  by_cases own : v ∈ names
  · exact .inr own
  · refine .inl (h v (mem.resolve_right own) ?_)
    rcases mentioned with here | here
    · exact less v here own
    · exact .inr (inside v here)

theorem inScope (h : Covers S T free bound) {vs : NameSet} (inside : InScope S vs) (less : ∀ v ∈ vs, v ∈ free ∨ v ∈ bound) :
    InScope T vs := fun v mem => h v (inside v mem) (less v mem)

/-- Annotations behind a binding of the names. -/
theorem annotations (h : Covers S T free bound) {vs : NameSet} (inside : InScope (S.bind names) vs)
    (less : ∀ v ∈ vs, v ∉ names → v ∈ free ∨ v ∈ bound) : InScope (T.bind names) vs := by
  intro v mem
  by_cases own : v ∈ names
  · exact .inr own
  · exact .inl (h v ((inside v mem).resolve_right own) (less v mem own))

end Covers

theorem BindersScoped.narrow {S T : Scope} {free : NameSet} {bound : List Name} {bs : List Binder} (covers : Covers S T free bound)
    (less : ∀ v ∈ freeBinders bs, v ∈ free ∨ v ∈ bound) (h : BindersScoped S bs) : BindersScoped T bs := by
  induction bs generalizing S T with
  | nil => trivial
  | cons b bs ih =>
    obtain ⟨here, later⟩ := h
    have inside : Covers (S.bind [b.name]) (T.bind [b.name]) free bound :=
      covers.enter (fun v mem _ => .inl mem) fun v mem => mem
    constructor
    · exact covers.inScope here fun v mem => less v (NameSet.mem_gather.mpr ⟨b, List.mem_cons_self, mem⟩)
    · refine ih inside (fun v mem => less v ?_) later
      obtain ⟨b', among, mentioned⟩ := NameSet.mem_gather.mp mem
      exact NameSet.mem_gather.mpr ⟨b', List.mem_cons_of_mem _ among, mentioned⟩

/-- An annotation in a pattern mentions free names of the pattern and its own names. -/
theorem Pattern.mem_free_or_names {p : Pattern} {b : Binder} {v : Name} (among : b ∈ p.binders) (mem : v ∈ b.free) :
    v ∈ p.free ∨ v ∈ p.names := by
  by_cases own : v ∈ p.names
  · exact .inr own
  · exact .inl (NameSet.mem_without.mpr ⟨NameSet.mem_gather.mpr ⟨b, among, mem⟩, own⟩)

theorem Pattern.Scoped.narrow {S T : Scope} {p : Pattern} (covers : Covers S T p.free p.names) (h : p.Scoped S) : p.Scoped T := by
  obtain ⟨context, values⟩ := h
  constructor
  · refine context.narrow covers fun v mem => ?_
    obtain ⟨b, among, mentioned⟩ := NameSet.mem_gather.mp mem
    exact mem_free_or_names (List.mem_append_left _ among) mentioned
  · intro b among
    exact covers.annotations (values b among) fun v mem _ => mem_free_or_names (List.mem_append_right _ among) mem

-- Induction over the code. At each step the free and bound names of a part are those of the whole, or are bound on the way
-- to the part.
mutual

theorem Exp.Scoped.narrow : ∀ (e : Exp) {S T : Scope}, Covers S T e.free e.bound → e.Scoped S → e.Scoped T
  | .operand _, _, _, covers, h | .binary .., _, _, covers, h | .compare .., _, _, covers, h | .index .., _, _, covers, h
  | .update .., _, _, covers, h | .iota .., _, _, covers, h | .replicate .., _, _, covers, h | .reshape .., _, _, covers, h
  | .rearrange .., _, _, covers, h | .copy _, _, _, covers, h | .alloc .., _, _, covers, h => covers.inScope h fun _ mem => .inl mem
  | .branch cond onTrue onFalse ret, _, _, covers, h => by
    simp only [Exp.free, Exp.bound] at covers
    refine ⟨covers.inScope h.1 ?_, Body.Scoped.narrow onTrue (covers.part ?_ ?_) h.2.1,
      Body.Scoped.narrow onFalse (covers.part ?_ ?_) h.2.2⟩ <;> grind
  | .loop context values index bound body, _, _, covers, h => by
    simp only [Exp.free, Exp.bound] at covers
    refine ⟨covers.inScope h.1 ?_, h.2.1.narrow covers ?_, Body.Scoped.narrow body (covers.enter ?_ ?_) h.2.2⟩ <;> grind
  | .launch kernel, _, _, covers, h => Kernel.Scoped.narrow kernel covers h

theorem StmsScoped.narrow : ∀ (stms : List Stm) {after : NameSet} {S T : Scope},
    Covers S T (freeBefore after stms) (boundInStms stms) → StmsScoped S after stms → StmsScoped T after stms
  | [], _, _, _, covers, h => covers.inScope h fun _ mem => .inl mem
  | ⟨pat, certs, exp⟩ :: stms, _, _, _, covers, h => by
    simp only [freeBefore, boundInStms, Stm.free] at covers
    refine ⟨⟨covers.inScope h.1.1 ?_, h.1.2.1.narrow (covers.part ?_ ?_), Exp.Scoped.narrow exp (covers.part ?_ ?_) h.1.2.2⟩,
      StmsScoped.narrow stms (covers.enter ?_ ?_) h.2⟩ <;> grind

theorem Body.Scoped.narrow : ∀ (body : Body) {S T : Scope}, Covers S T body.free body.bound → body.Scoped S → body.Scoped T
  | ⟨stms, _⟩, _, _, covers, h => StmsScoped.narrow stms covers h

theorem Lambda.Scoped.narrow : ∀ (op : Lambda) {leading : Nat} {S T : Scope}, Covers S T op.free op.bound →
    op.Scoped S leading → op.Scoped T leading
  | ⟨params, body, ret⟩, leading, _, _, covers, h => by
    simp only [Lambda.free, Lambda.bound] at covers
    have typed {b : Binder} (among : b ∈ params) {v : Name} (mem : v ∈ b.free) :
        v ∈ (body.free ∪ freeTypes ret).without (params.map Binder.name) ∪ freeBinders params :=
      NameSet.mem_union.mpr (.inr (NameSet.mem_gather.mpr ⟨b, among, mem⟩))
    refine ⟨h.1.narrow covers fun v mem => ?_, fun b among => ?_, covers.annotations h.2.2.1 fun v mem other => ?_,
      Body.Scoped.narrow body (covers.enter ?_ ?_) h.2.2.2⟩
    · obtain ⟨b, among, mentioned⟩ := NameSet.mem_gather.mp mem
      exact .inl (typed (List.mem_of_mem_take among) mentioned)
    · exact covers.annotations (h.2.1 b among) fun v mem _ => .inl (typed (List.mem_of_mem_drop among) mem)
    · grind
    · grind
    · grind

theorem Kernel.Scoped.narrow : ∀ (k : Kernel) {S T : Scope}, Covers S T k.free k.bound → k.Scoped S → k.Scoped T
  | .map ⟨certs, width, thread, space, inputs, returns, body⟩, _, _, covers, h => by
    simp only [Kernel.free, Kernel.bound] at covers
    refine ⟨covers.inScope h.1 ?_, fun i among => covers.annotations (h.2.1 i among) fun v mem _ => ?_,
      Body.Scoped.narrow body (covers.enter ?_ ?_) h.2.2⟩
    · grind
    · have gathered : v ∈ NameSet.gather MapInput.free inputs := NameSet.mem_gather.mpr ⟨i, among, mem⟩
      grind
    · grind
    · grind
  | .scan ⟨_, _, _, combine, fold, _, _⟩, _, _, covers, h => by
    simp only [Kernel.free, Kernel.bound] at covers
    refine ⟨covers.inScope h.1 ?_, Lambda.Scoped.narrow combine (covers.part ?_ ?_) h.2.1,
      Lambda.Scoped.narrow fold (covers.part ?_ ?_) h.2.2⟩ <;> grind
  | .chunked ⟨_, _, _, _, op, _⟩, _, _, covers, h => by
    simp only [Kernel.free, Kernel.bound] at covers
    refine ⟨covers.inScope h.1 ?_, Lambda.Scoped.narrow op (covers.part ?_ ?_) h.2⟩ <;> grind
  | .scatter ⟨_, _, op, _, _⟩, _, _, covers, h => by
    simp only [Kernel.free, Kernel.bound] at covers
    refine ⟨covers.inScope h.1 ?_, Lambda.Scoped.narrow op (covers.part ?_ ?_) h.2⟩ <;> grind
  | .group ⟨_, _, _, _, body⟩, _, _, covers, h => by
    simp only [Kernel.free, Kernel.bound] at covers
    refine ⟨covers.inScope h.1 ?_, GroupBody.Scoped.narrow body (covers.enter ?_ ?_) h.2⟩ <;> grind
  | .numGroups, _, _, _, _ => trivial
  | .groupSize, _, _, _, _ => trivial

theorem GroupStm.Scoped.narrow : ∀ (stm : GroupStm) {S T : Scope}, Covers S T stm.free stm.bound → stm.Scoped S → stm.Scoped T
  | .split size chunks _ _ _ _, _, _, covers, h => by
    simp only [GroupStm.free, GroupStm.bound] at covers
    refine ⟨covers.inScope h.1 ?_, fun b among => covers.annotations (h.2 b among) fun v mem _ => ?_⟩
    · grind
    · have gathered : v ∈ freeBinders chunks := NameSet.mem_gather.mpr ⟨b, among, mem⟩
      grind
  | .thread pat only body, _, _, covers, h => by
    simp only [GroupStm.free, GroupStm.bound] at covers
    refine ⟨covers.inScope h.1 ?_, h.2.1.narrow (covers.part ?_ ?_), Body.Scoped.narrow body (covers.part ?_ ?_) h.2.2⟩ <;> grind
  | .reduce pat width op inputs, _, _, covers, h => by
    simp only [GroupStm.free, GroupStm.bound] at covers
    refine ⟨covers.inScope h.1 ?_, h.2.1.narrow (covers.part ?_ ?_), Lambda.Scoped.narrow op (covers.part ?_ ?_) h.2.2⟩ <;> grind

theorem GroupStmsScoped.narrow : ∀ (stms : List GroupStm) {after : NameSet} {S T : Scope},
    Covers S T (freeBeforeGroup after stms) (boundInGroupStms stms) → GroupStmsScoped S after stms → GroupStmsScoped T after stms
  | [], _, _, _, covers, h => covers.inScope h fun _ mem => .inl mem
  | stm :: stms, _, _, _, covers, h => by
    simp only [freeBeforeGroup, boundInGroupStms] at covers
    refine ⟨GroupStm.Scoped.narrow stm (covers.part ?_ ?_) h.1, GroupStmsScoped.narrow stms (covers.enter ?_ ?_) h.2⟩ <;> grind

theorem GroupBody.Scoped.narrow : ∀ (body : GroupBody) {S T : Scope}, Covers S T body.free body.bound → body.Scoped S → body.Scoped T
  | ⟨stms, _⟩, _, _, covers, h => GroupStmsScoped.narrow stms covers h

end

section
variable {S T : Scope} (more : ∀ v, S v → T v)
include more

theorem Pattern.Scoped.mono {p : Pattern} (h : p.Scoped S) : p.Scoped T := h.narrow (.of_le more)

theorem BindersScoped.mono {bs : List Binder} (h : BindersScoped S bs) : BindersScoped T bs :=
  h.narrow (Covers.of_le more : Covers S T (freeBinders bs) []) fun _ mem => .inl mem

theorem Exp.Scoped.mono {e : Exp} (h : e.Scoped S) : e.Scoped T := Exp.Scoped.narrow e (.of_le more) h

theorem StmsScoped.mono {after : NameSet} {stms : List Stm} (h : StmsScoped S after stms) : StmsScoped T after stms :=
  StmsScoped.narrow stms (.of_le more) h

theorem Body.Scoped.mono {body : Body} (h : body.Scoped S) : body.Scoped T := Body.Scoped.narrow body (.of_le more) h

theorem Lambda.Scoped.mono {op : Lambda} {leading : Nat} (h : op.Scoped S leading) : op.Scoped T leading :=
  Lambda.Scoped.narrow op (.of_le more) h

theorem Kernel.Scoped.mono {k : Kernel} (h : k.Scoped S) : k.Scoped T := Kernel.Scoped.narrow k (.of_le more) h

end

/-! Free names -/

theorem BindersScoped.free {S : Scope} {bs : List Binder} (h : BindersScoped S bs) :
    InScope (S.bind (bs.map Binder.name)) (freeBinders bs) := by
  induction bs generalizing S with
  | nil => exact InScope.empty
  | cons b bs ih =>
    intro v mem
    obtain ⟨b', among, mentioned⟩ := NameSet.mem_gather.mp mem
    rcases List.mem_cons.mp among with rfl | later
    · exact .inl (h.1 v mentioned)
    · have inside := ih h.2 v (NameSet.mem_gather.mpr ⟨b', later, mentioned⟩)
      simp only [Scope.bind, List.map_cons, List.mem_cons, List.not_mem_nil, or_false] at inside ⊢
      exact or_assoc.mp inside

theorem Pattern.Scoped.free {S : Scope} {p : Pattern} (h : p.Scoped S) : InScope S p.free := by
  intro v mem
  obtain ⟨mem, other⟩ := NameSet.mem_without.mp mem
  obtain ⟨b, among, mentioned⟩ := NameSet.mem_gather.mp mem
  rw [Pattern.names, Pattern.binders, List.map_append, List.mem_append, not_or] at other
  rcases List.mem_append.mp among with context | value
  · exact (h.1.free v (NameSet.mem_gather.mpr ⟨b, context, mentioned⟩)).resolve_right other.1
  · exact (h.2 b value v mentioned).resolve_right other.1

/-- The parameters of an operator mention names of the scope and each other. -/
theorem Lambda.Scoped.params {S : Scope} {op : Lambda} {leading : Nat} (h : op.Scoped S leading) :
    InScope (S.bind (op.params.map Binder.name)) (freeBinders op.params) := by
  obtain ⟨params, body, ret⟩ := op
  have first (v : Name) (mem : v ∈ (params.take leading).map Binder.name) : v ∈ params.map Binder.name :=
    ((List.take_sublist leading params).map Binder.name).subset mem
  intro v mem
  obtain ⟨b, among, mentioned⟩ := NameSet.mem_gather.mp mem
  rw [← List.take_append_drop leading params, List.mem_append] at among
  rcases among with leads | follows
  · exact (h.1.free v (NameSet.mem_gather.mpr ⟨b, leads, mentioned⟩)).imp_right (first v)
  · exact (h.2.1 b follows v mentioned).imp_right (first v)

-- The parameters of an operator that annotations of others mention count as free, so a free name may be bound in the code.
mutual

theorem Exp.Scoped.free : ∀ (e : Exp) {S : Scope}, e.Scoped S → InScope (S.bind e.bound) e.free
  | .operand _, _, h | .binary .., _, h | .compare .., _, h | .index .., _, h | .update .., _, h | .iota .., _, h
  | .replicate .., _, h | .reshape .., _, h | .rearrange .., _, h | .copy _, _, h | .alloc .., _, h => InScope.mono h fun _ => .inl
  | .branch cond onTrue onFalse ret, _, h => by
    have yes := Body.Scoped.free onTrue h.2.1
    have no := Body.Scoped.free onFalse h.2.2
    have operands := h.1
    simp only [InScope, Exp.free, Exp.bound] at *
    grind
  | .loop context values index bound body, _, h => by
    have params := h.2.1.free
    have inner := Body.Scoped.free body h.2.2
    have operands := h.1
    simp only [InScope, Exp.free, Exp.bound] at *
    grind
  | .launch kernel, _, h => Kernel.Scoped.free kernel h

theorem StmsScoped.free : ∀ (stms : List Stm) {after : NameSet} {S : Scope}, StmsScoped S after stms →
    InScope (S.bind (boundInStms stms)) (freeBefore after stms)
  | [], _, _, h => InScope.mono h fun _ => .inl
  | ⟨pat, certs, exp⟩ :: stms, _, _, h => by
    have typed := h.1.2.1.free
    have inner := Exp.Scoped.free exp h.1.2.2
    have later := StmsScoped.free stms h.2
    have certified := h.1.1
    simp only [InScope, freeBefore, boundInStms, Stm.free] at *
    grind

theorem Body.Scoped.free : ∀ (body : Body) {S : Scope}, body.Scoped S → InScope (S.bind body.bound) body.free
  | ⟨stms, _⟩, _, h => StmsScoped.free stms h

theorem Lambda.Scoped.free : ∀ (op : Lambda) {leading : Nat} {S : Scope}, op.Scoped S leading → InScope (S.bind op.bound) op.free
  | ⟨params, body, ret⟩, leading, S, h => by
    have first (v : Name) (mem : v ∈ (params.take leading).map Binder.name) : v ∈ params.map Binder.name :=
      ((List.take_sublist leading params).map Binder.name).subset mem
    have typed := Lambda.Scoped.params h
    have inner := Body.Scoped.free body h.2.2.2
    have returned := h.2.2.1
    simp only [InScope, Lambda.free, Lambda.bound] at *
    grind

theorem Kernel.Scoped.free : ∀ (k : Kernel) {S : Scope}, k.Scoped S → InScope (S.bind k.bound) k.free
  | .map ⟨certs, width, thread, space, inputs, returns, body⟩, _, h => by
    have read := InScope.gather_iff.mpr h.2.1
    have inner := Body.Scoped.free body h.2.2
    have operands := h.1
    simp only [InScope, Kernel.free, Kernel.bound] at *
    grind
  | .scan ⟨_, _, _, combine, fold, _, _⟩, _, h => by
    have left := Lambda.Scoped.free combine h.2.1
    have right := Lambda.Scoped.free fold h.2.2
    have operands := h.1
    simp only [InScope, Kernel.free, Kernel.bound] at *
    grind
  | .chunked ⟨_, _, _, _, op, _⟩, _, h => by
    have inner := Lambda.Scoped.free op h.2
    have operands := h.1
    simp only [InScope, Kernel.free, Kernel.bound] at *
    grind
  | .scatter ⟨_, _, op, _, _⟩, _, h => by
    have inner := Lambda.Scoped.free op h.2
    have operands := h.1
    simp only [InScope, Kernel.free, Kernel.bound] at *
    grind
  | .group ⟨_, _, _, _, body⟩, _, h => by
    have inner := GroupBody.Scoped.free body h.2
    have operands := h.1
    simp only [InScope, Kernel.free, Kernel.bound] at *
    grind
  | .numGroups, _, _ => InScope.empty
  | .groupSize, _, _ => InScope.empty

theorem GroupStm.Scoped.free : ∀ (stm : GroupStm) {S : Scope}, stm.Scoped S → InScope (S.bind stm.bound) stm.free
  | .split size chunks _ _ _ _, S, h => by
    have typed : InScope (S.bind [size.name]) (freeBinders chunks) := InScope.gather_iff.mpr h.2
    have operands := h.1
    simp only [InScope, GroupStm.free, GroupStm.bound] at *
    grind
  | .thread pat only body, _, h => by
    have typed := h.2.1.free
    have inner := Body.Scoped.free body h.2.2
    have operands := h.1
    simp only [InScope, GroupStm.free, GroupStm.bound] at *
    grind
  | .reduce pat width op inputs, _, h => by
    have typed := h.2.1.free
    have inner := Lambda.Scoped.free op h.2.2
    have operands := h.1
    simp only [InScope, GroupStm.free, GroupStm.bound] at *
    grind

theorem GroupStmsScoped.free : ∀ (stms : List GroupStm) {after : NameSet} {S : Scope}, GroupStmsScoped S after stms →
    InScope (S.bind (boundInGroupStms stms)) (freeBeforeGroup after stms)
  | [], _, _, h => InScope.mono h fun _ => .inl
  | stm :: stms, _, _, h => by
    have here := GroupStm.Scoped.free stm h.1
    have later := GroupStmsScoped.free stms h.2
    simp only [InScope, freeBeforeGroup, boundInGroupStms] at *
    grind

theorem GroupBody.Scoped.free : ∀ (body : GroupBody) {S : Scope}, body.Scoped S → InScope (S.bind body.bound) body.free
  | ⟨stms, _⟩, _, h => GroupStmsScoped.free stms h

end

/-! Statements one after another -/

/-- The names that a statement binds, at every depth. -/
def Stm.bound (stm : Stm) : List Name := stm.pat.names ++ stm.exp.bound

/-- The names of statements that follow each other. -/
def stmNames (stms : List Stm) : List Name := stms.flatMap fun stm => stm.pat.names

section
variable {S : Scope} {after : NameSet} {stm : Stm} {stms more : List Stm} {v : Name}

@[simp] theorem stmNames_cons : stmNames (stm :: stms) = stm.pat.names ++ stmNames stms := rfl

@[simp] theorem stmNames_append : stmNames (stms ++ more) = stmNames stms ++ stmNames more := List.flatMap_append

theorem boundInStms_cons : boundInStms (stm :: stms) = stm.bound ++ boundInStms stms := by
  obtain ⟨pat, certs, exp⟩ := stm
  rw [boundInStms, Stm.bound]

theorem mem_boundInStms_of_mem (among : stm ∈ stms) (mem : v ∈ stm.bound) : v ∈ boundInStms stms := by
  induction stms with
  | nil => cases among
  | cons first stms ih =>
    rw [boundInStms_cons, List.mem_append]
    rcases List.mem_cons.mp among with rfl | later
    · exact .inl mem
    · exact .inr (ih later)

theorem mem_boundInStms_of_stmNames (mem : v ∈ stmNames stms) : v ∈ boundInStms stms := by
  obtain ⟨stm, among, named⟩ := List.mem_flatMap.mp mem
  exact mem_boundInStms_of_mem among (List.mem_append_left _ named)

theorem stmsScoped_cons : StmsScoped S after (stm :: stms) ↔ stm.Scoped S ∧ StmsScoped (S.bind stm.pat.names) after stms := by
  obtain ⟨pat, certs, exp⟩ := stm
  rw [StmsScoped, Stm.Scoped]

theorem stmsScoped_append :
    StmsScoped S after (stms ++ more) ↔ StmsScoped S ∅ stms ∧ StmsScoped (S.bind (stmNames stms)) after more := by
  induction stms generalizing S with
  | nil => simp [StmsScoped, stmNames, Scope.bind_nil]
  | cons stm stms ih => rw [List.cons_append, stmsScoped_cons, stmsScoped_cons, ih, stmNames_cons, Scope.bind_append, and_assoc]

theorem stmsScoped_iff : StmsScoped S after stms ↔ StmsScoped S ∅ stms ∧ InScope (S.bind (stmNames stms)) after := by
  have split : StmsScoped S after (stms ++ []) ↔ _ := stmsScoped_append
  rwa [List.append_nil] at split

/-- A name that is free in statements is free in one of them, or mentioned behind them. -/
theorem exists_of_freeBefore (mem : v ∈ freeBefore after stms) : v ∈ after ∨ ∃ stm ∈ stms, v ∈ stm.free := by
  induction stms with
  | nil => exact .inl mem
  | cons stm stms ih =>
    rw [freeBefore, NameSet.mem_union, NameSet.mem_without] at mem
    rcases mem with ⟨later, _⟩ | here
    · exact (ih later).imp_right fun ⟨st, among, free⟩ => ⟨st, List.mem_cons_of_mem _ among, free⟩
    · exact .inr ⟨stm, List.mem_cons_self, here⟩

end

/-! The parts of expressions, operators and kernels -/

section
variable {S : Scope}

theorem Exp.scoped_iff_of_leaf {e : Exp} (leaf : e.isNested = false) : e.Scoped S ↔ InScope S e.free := by
  cases e <;> first | rfl | exact nomatch leaf

theorem Exp.bound_of_leaf {e : Exp} (leaf : e.isNested = false) : e.bound = [] := by
  cases e <;> first | rfl | exact nomatch leaf

theorem Body.scoped_iff (body : Body) : body.Scoped S ↔ StmsScoped S (freeOperands body.result) body.stms := by
  cases body
  rfl

theorem Body.bound_eq (body : Body) : body.bound = boundInStms body.stms := by
  cases body
  rfl

theorem Lambda.scoped_iff (op : Lambda) {leading : Nat} :
    op.Scoped S leading ↔ BindersScoped S (op.params.take leading)
      ∧ (∀ b ∈ op.params.drop leading, InScope (S.bind ((op.params.take leading).map Binder.name)) b.free)
      ∧ InScope (S.bind ((op.params.take leading).map Binder.name)) (freeTypes op.ret)
      ∧ op.body.Scoped (S.bind (op.params.map Binder.name)) := by
  cases op
  rfl

theorem Lambda.bound_eq (op : Lambda) : op.bound = op.params.map Binder.name ++ op.body.bound := by
  cases op
  rfl

theorem Kernel.scoped_map (k : MapKernel) :
    (Kernel.map k).Scoped S ↔
      InScope S (freeNames k.certs ∪ k.width.free ∪ freeOperands k.extents ∪ freeTypes (k.returns.map Prod.fst))
        ∧ (∀ i ∈ k.inputs, InScope (S.bind k.placeNames) i.free) ∧ k.body.Scoped (S.bind k.threadNames) := by
  cases k
  rfl

theorem Kernel.bound_map (k : MapKernel) : (Kernel.map k).bound = k.threadNames ++ k.body.bound := by
  cases k
  rfl

theorem MapKernel.threadNames_eq (k : MapKernel) : k.threadNames = k.placeNames ++ k.inputs.map fun i => i.param.name := rfl

theorem Kernel.scoped_scan (k : ScanKernel) :
    (Kernel.scan k).Scoped S ↔
      InScope S (freeNames k.certs ∪ k.width.free ∪ k.size.free ∪ freeOperands k.neutral ∪ freeNames k.arrays)
        ∧ k.combine.Scoped S 1 ∧ k.fold.Scoped S 1 := by
  cases k
  rfl

theorem Kernel.bound_scan (k : ScanKernel) : (Kernel.scan k).bound = k.combine.bound ++ k.fold.bound := by
  cases k
  rfl

theorem Kernel.scoped_chunked (k : ChunkedKernel) :
    (Kernel.chunked k).Scoped S ↔ InScope S (freeNames k.certs ∪ k.width.free ∪ k.size.free ∪ freeNames k.arrays) ∧ k.op.Scoped S 2 := by
  cases k
  rfl

theorem Kernel.bound_chunked (k : ChunkedKernel) : (Kernel.chunked k).bound = k.op.bound := by
  cases k
  rfl

theorem Kernel.scoped_scatter (k : ScatterKernel) :
    (Kernel.scatter k).Scoped S ↔
      InScope S (freeNames k.certs ∪ k.width.free ∪ freeNames k.arrays ∪ NameSet.gather (fun d => d.1.free ∪ {d.2}) k.dests)
        ∧ k.op.Scoped S 1 := by
  cases k
  rfl

theorem Kernel.bound_scatter (k : ScatterKernel) : (Kernel.scatter k).bound = k.op.bound := by
  cases k
  rfl

theorem GroupBody.bound_eq (body : GroupBody) : body.bound = boundInGroupStms body.stms := by
  cases body
  rfl

theorem Kernel.scoped_group (k : GroupKernel) :
    (Kernel.group k).Scoped S ↔ InScope S (freeNames k.certs ∪ k.size.free ∪ freeTypes k.returns)
      ∧ GroupStmsScoped (S.bind k.space.names) (NameSet.gather GroupResult.free k.body.result) k.body.stms := by
  rcases k with ⟨_, _, _, _, ⟨_, _⟩⟩
  rfl

theorem Kernel.bound_group (k : GroupKernel) : (Kernel.group k).bound = k.space.names ++ boundInGroupStms k.body.stms := by
  rcases k with ⟨_, _, _, _, ⟨_, _⟩⟩
  rfl

end

end ArrayKernels
