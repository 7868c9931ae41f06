import ArrayKernels.Proofs.GroupFollows
import ArrayKernels.Proofs.Scoping

/-! What an evaluation depends on. The evaluator reads operands, arrays and the sizes in types, some where a kernel is launched and
some in its threads, and each of these names is free in the body or bound in it. So two environments that agree on the free and the
bound names of a body give the same values or the same error. -/
namespace ArrayKernels

/-! Outcomes -/

section
variable {α β γ δ : Type}

/-- Related values, or the same error. -/
inductive SameOutcome (rel : α → β → Prop) : Eval α → Eval β → Prop where
  | ok {a : α} {b : β} (related : rel a b) : SameOutcome rel (.ok a) (.ok b)
  | error (e : EvalError) : SameOutcome rel (.error e) (.error e)

namespace SameOutcome

variable {rel : α → β → Prop} {next : γ → δ → Prop} {x : Eval α} {y : Eval β}

theorem bind {f : α → Eval γ} {g : β → Eval δ} (h : SameOutcome rel x y) (rest : ∀ a b, rel a b → SameOutcome next (f a) (g b)) :
    SameOutcome next (x >>= f) (y >>= g) := by
  cases h with
  | ok related => exact rest _ _ related
  | error e => exact .error e

theorem bind_same {f : α → Eval γ} {g : α → Eval δ} (x : Eval α) (rest : ∀ a, SameOutcome next (f a) (g a)) :
    SameOutcome next (x >>= f) (x >>= g) := by
  cases x with
  | ok a => exact rest a
  | error e => exact .error e

theorem exists_ok {a : α} (h : SameOutcome rel (.ok a) y) : ∃ b, y = .ok b ∧ rel a b := by
  cases h with
  | ok related => exact ⟨_, rfl, related⟩

theorem bind_eq {f : α → Eval γ} {g : β → Eval γ} (h : SameOutcome rel x y) (rest : ∀ a b, rel a b → f a = g b) :
    (x >>= f) = (y >>= g) := by
  cases h with
  | ok related => exact rest _ _ related
  | error e => rfl

theorem mapM {f : α → Eval γ} {g : β → Eval δ} {xs : List α} {ys : List β}
    (each : List.Forall₂ (fun a b => SameOutcome next (f a) (g b)) xs ys) :
    SameOutcome (List.Forall₂ next) (xs.mapM f) (ys.mapM g) := by
  induction each with
  | nil => exact .ok .nil
  | cons head _ ih =>
    rw [List.mapM_cons, List.mapM_cons]
    exact head.bind fun c d first => ih.bind fun cs ds others => .ok (.cons first others)

theorem foldlM {f : γ → α → Eval γ} {g : δ → β → Eval δ} {xs : List α} {ys : List β}
    (each : List.Forall₂ (fun a b => ∀ c d, next c d → SameOutcome next (f c a) (g d b)) xs ys) {c : γ} {d : δ} (start : next c d) :
    SameOutcome next (xs.foldlM f c) (ys.foldlM g d) := by
  induction each generalizing c d with
  | nil => exact .ok start
  | cons head _ ih =>
    rw [List.foldlM_cons, List.foldlM_cons]
    exact (head c d start).bind fun _ _ related => ih related

end SameOutcome

theorem mapM_eq_of_forall₂ {f : α → Eval γ} {g : β → Eval γ} {xs : List α} {ys : List β}
    (each : List.Forall₂ (fun a b => f a = g b) xs ys) : xs.mapM f = ys.mapM g := by
  induction each with
  | nil => rfl
  | cons head _ ih => rw [List.mapM_cons, List.mapM_cons, head, ih]

theorem foldlM_eq_of_forall₂ {f : γ → α → Eval γ} {g : γ → β → Eval γ} {xs : List α} {ys : List β}
    (each : List.Forall₂ (fun a b => ∀ c, f c a = g c b) xs ys) (c : γ) : xs.foldlM f c = ys.foldlM g c := by
  induction each generalizing c with
  | nil => rfl
  | cons head _ ih => simp only [List.foldlM_cons, head, ih]

end

/-! Environments -/

/-- Each name of the scope is unbound in both environments, or has the same value in both. -/
def Env.Agree (S : Scope) (env env' : Env) : Prop := ∀ v, S v → env.get? v = env'.get? v

section
variable {S : Scope} {env env' : Env} {threads threads' : List Env}

namespace Env.Agree

theorem trans {env'' : Env} (h : env.Agree S env') (h' : env'.Agree S env'') : env.Agree S env'' :=
  fun v visible => (h v visible).trans (h' v visible)

/-- Binding a name that is out of scope makes no difference. -/
theorem bind_other {v : Name} (other : ¬S v) (x : Value) : env.Agree S (env.bind v x) := by
  intro w visible
  rw [get?_bind, if_neg]
  rintro rfl
  exact other visible

theorem bind (h : env.Agree S env') (v : Name) (x : Value) : (env.bind v x).Agree S (env'.bind v x) := by
  intro w visible
  rw [get?_bind, get?_bind, h w visible]

theorem bindAll (h : env.Agree S env') (bs : List (Name × Value)) : (env.bindAll bs).Agree S (env'.bindAll bs) := by
  induction bs generalizing env env' with
  | nil => exact h
  | cons b bs ih => exact ih (h.bind b.1 b.2)

theorem bindValues (h : env.Agree S env') (pat : Pattern) (values : List Value) :
    SameOutcome (Agree S) (env.bindValues pat values) (env'.bindValues pat values) := by
  unfold Env.bindValues
  split
  · exact .ok (h.bindAll _)
  · split
    · exact .ok (h.bindAll _)
    · exact .error _

theorem bindParams (h : env.Agree S env') (params : List Binder) (args : List Value) :
    SameOutcome (Agree S) (env.bindParams params args) (env'.bindParams params args) := by
  unfold Env.bindParams
  split
  · exact .ok (h.bindAll _)
  · exact .error _

theorem lookup (h : env.Agree S env') {v : Name} (visible : S v) : env.lookup v = env'.lookup v := lookup_congr (h v visible)

variable {x : Operand}

theorem operand (h : env.Agree S env') (inside : InScope S x.free) : env.operand x = env'.operand x :=
  operand_congr fun v free => h v (inside v free)

theorem scalar (h : env.Agree S env') (inside : InScope S x.free) : env.scalar x = env'.scalar x := by
  rw [Env.scalar, Env.scalar, h.operand inside]

theorem word (h : env.Agree S env') (inside : InScope S x.free) : env.word x = env'.word x := by
  rw [Env.word, Env.word, h.scalar inside]

theorem size (h : env.Agree S env') (inside : InScope S x.free) : env.size x = env'.size x := by
  rw [Env.size, Env.size, h.word inside]

theorem array (h : env.Agree S env') {v : Name} (visible : S v) : env.array v = env'.array v := by
  rw [Env.array, Env.array, h.lookup visible]

theorem operands (h : env.Agree S env') {xs : List Operand} (inside : InScope S (freeOperands xs)) :
    xs.mapM env.operand = xs.mapM env'.operand :=
  mapM_eq_of_forall₂ (List.forall₂_same.mpr fun x mem => h.operand (InScope.gather_iff.mp inside x mem))

theorem words (h : env.Agree S env') {xs : List Operand} (inside : InScope S (freeOperands xs)) :
    xs.mapM env.word = xs.mapM env'.word :=
  mapM_eq_of_forall₂ (List.forall₂_same.mpr fun x mem => h.word (InScope.gather_iff.mp inside x mem))

theorem sizes (h : env.Agree S env') {xs : List Operand} (inside : InScope S (freeOperands xs)) : env.sizes xs = env'.sizes xs :=
  mapM_eq_of_forall₂ (List.forall₂_same.mpr fun x mem => h.size (InScope.gather_iff.mp inside x mem))

theorem arrays (h : env.Agree S env') {vs : List Name} (inside : InScope S (freeNames vs)) : vs.mapM env.array = vs.mapM env'.array :=
  mapM_eq_of_forall₂ (List.forall₂_same.mpr fun v mem => h.array (inside v (NameSet.mem_ofList.mpr mem)))

theorem blank (h : env.Agree S env') {ty : Ty} (inside : InScope S ty.free) : env.blank ty = env'.blank ty := by
  cases ty with
  | scalar e => rfl
  | array e shape unique => rw [Env.blank, Env.blank, h.sizes inside]
  | mem size space => rw [Env.blank, Env.blank, h.word inside]

theorem rowShape (h : env.Agree S env') {ty : Ty} (inside : InScope S ty.free) : env.rowShape ty = env'.rowShape ty := by
  rw [Env.rowShape, Env.rowShape, h.sizes (inside.part fun _ => ty.free_of_rowReads)]

end Env.Agree

/-! Kernels. What the code of a thread gives is taken to depend on the names of the scope alone. -/

theorem MapKernel.bindInputs_agree (h : env.Agree S env') {inputs : List MapInput} (inside : ∀ i ∈ inputs, InScope S i.free) :
    SameOutcome (Env.Agree S) (bindInputs env inputs) (bindInputs env' inputs) := by
  refine SameOutcome.foldlM (List.forall₂_same.mpr fun i mem e e' h => ?_) h
  have inside := inside i mem
  simp only [MapInput.free, InScope.union_iff, InScope.singleton_iff] at inside
  rw [h.array inside.1.1, h.words inside.1.2]
  refine .bind_same _ fun a => .bind_same _ fun indices => .bind_same _ fun x => ?_
  exact .ok (h.bind _ x)

theorem MapKernel.run_agree {k : MapKernel} {thread : Env → Eval (List Value)} (h : env.Agree S env') (width : InScope S k.width.free)
    (extents : InScope S (freeOperands k.extents)) (inputs : ∀ i ∈ k.inputs, InScope S i.free)
    (returns : InScope S (freeTypes (k.returns.map Prod.fst))) (body : ∀ e e', Env.Agree S e e' → thread e = thread e') :
    k.run thread env = k.run thread env' := by
  have each (dims : List Nat) : k.runThread thread dims env = k.runThread thread dims env' := by
    funext t
    have entered := bindInputs_agree ((h.bind k.thread (.count t)).bindAll
      ((k.space.map Prod.fst).zip ((coordinates t dims).2.map Value.count)).reverse) inputs
    exact entered.bind_eq fun e e' h => by rw [body e e' h]
  have assembled (space : List Nat) (results : List (List Value)) :
      (k.returns.zipIdx.mapM fun rj => assemble env space rj.1 (column rj.2 results)) =
        k.returns.zipIdx.mapM fun rj => assemble env' space rj.1 (column rj.2 results) := by
    refine mapM_eq_of_forall₂ (List.forall₂_same.mpr fun rj mem => ?_)
    have among := List.mem_map_of_mem (List.fst_mem_of_mem_zipIdx mem) (f := Prod.fst)
    rw [assemble, assemble, h.sizes ((InScope.gather_iff.mp returns _ among).part fun _ => rj.1.1.free_of_shape)]
  simp only [run, h.size width, h.sizes extents, each, assembled]

theorem ScanKernel.run_agree {k : ScanKernel} (h : env.Agree S env') (width : InScope S k.width.free)
    (neutral : InScope S (freeOperands k.neutral)) (arrays : InScope S (freeNames k.arrays)) (fold : List Value → Eval (List Value)) :
    k.run fold env = k.run fold env' := by
  have assembled (steps : List (List Value)) :
      (k.neutral.zipIdx.mapM fun nj => assemble env nj.1 (column nj.2 steps)) =
        k.neutral.zipIdx.mapM fun nj => assemble env' nj.1 (column nj.2 steps) := by
    refine mapM_eq_of_forall₂ (List.forall₂_same.mpr fun nj mem => ?_)
    rw [assemble, assemble, h.operand (InScope.gather_iff.mp neutral _ (List.fst_mem_of_mem_zipIdx mem))]
  simp only [run, h.size width, h.arrays arrays, h.operands neutral, assembled]

theorem ChunkedKernel.run_agree {k : ChunkedKernel} (h : env.Agree S env') (width : InScope S k.width.free) (size : InScope S k.size.free)
    (arrays : InScope S (freeNames k.arrays)) (ret : InScope S (freeTypes k.op.ret)) (op : List Value → Eval (List Value)) :
    k.run op env = k.run op env' := by
  have sizes := size.launched
  simp only [InScope.union_iff] at sizes
  have assembled (rows : Nat) (results : List (List Nat × List Value)) :
      (k.op.ret.zipIdx.mapM fun tj => assemble env rows tj.1 (results.filterMap fun r => (r.2[tj.2]?).map (r.1, ·))) =
        k.op.ret.zipIdx.mapM fun tj => assemble env' rows tj.1 (results.filterMap fun r => (r.2[tj.2]?).map (r.1, ·)) := by
    refine mapM_eq_of_forall₂ (List.forall₂_same.mpr fun tj mem => ?_)
    rw [assemble, assemble, h.rowShape (InScope.gather_iff.mp ret _ (List.fst_mem_of_mem_zipIdx mem))]
  simp only [run, h.size width, h.size sizes.1.1,
    h.size sizes.2, h.arrays arrays, assembled]

theorem ScatterKernel.run_agree {k : ScatterKernel} (h : env.Agree S env') (width : InScope S k.width.free)
    (arrays : InScope S (freeNames k.arrays)) (dests : ∀ d ∈ k.dests, S d.2) (op : List Value → Eval (List Value)) :
    k.run op env = k.run op env' := by
  have read : (k.dests.mapM fun d => env.array d.2) = k.dests.mapM fun d => env'.array d.2 :=
    mapM_eq_of_forall₂ (List.forall₂_same.mpr fun d mem => h.array (dests d mem))
  simp only [run, h.size width, h.arrays arrays, read]

namespace GroupKernel

theorem split_agree (h : env.Agree S env') {size : Binder} {chunks : List Binder} {division : Division} {width perThread : Operand}
    {arrays : List Name} (counted : InScope S width.free) (divided : InScope S perThread.free) (inside : InScope S (freeNames arrays))
    (n t : Nat) :
    SameOutcome (Env.Agree S) (split size chunks division width perThread arrays n env t)
      (split size chunks division width perThread arrays n env' t) := by
  have parts (numbers : List Nat) :
      (chunks.zip arrays).mapM (fun ca => do .ok (ca.1.name, Value.array (← (← env.array ca.2).takeRows numbers))) =
        (chunks.zip arrays).mapM fun ca => (do .ok (ca.1.name, Value.array (← (← env'.array ca.2).takeRows numbers)) : Eval _) := by
    refine mapM_eq_of_forall₂ (List.forall₂_same.mpr fun ca mem => ?_)
    rw [h.array (inside _ (NameSet.mem_ofList.mpr (List.of_mem_zip mem).2))]
  simp only [split, h.size counted, h.size divided, parts]
  refine .bind_same _ fun w => .bind_same _ fun p => .bind_same _ fun bs => ?_
  exact .ok (h.bindAll _)

theorem runThread_agree (h : env.Agree S env') {pat : Pattern} {only : Option Operand} {run : Env → Eval (List Value)}
    (typed : ∀ b ∈ pat.values, InScope S b.ty.free) (chosen : InScope S (freeOperands only.toList)) (body : run env = run env')
    (groupSize t : Nat) :
    SameOutcome (Env.Agree S) (runThread pat only run groupSize env t) (runThread pat only run groupSize env' t) := by
  have decided : active only groupSize env t = active only groupSize env' t := by
    cases only with
    | none => rfl
    | some lane => rw [active, active, h.size (InScope.gather_iff.mp chosen lane List.mem_cons_self)]
  have blanks : (pat.values.mapM fun b => env.blank b.ty) = pat.values.mapM fun b => env'.blank b.ty :=
    mapM_eq_of_forall₂ (List.forall₂_same.mpr fun b mem => h.blank (typed b mem))
  rw [runThread_eq, runThread_eq, decided, body, blanks]
  refine .bind_same _ fun chosen => .bind_same _ fun values => ?_
  exact h.bindValues pat values

theorem reduceGroup_agree {width : Operand} {inputs : List (Operand × Name)} {op : Env → List Value → Eval (List Value)}
    (counted : InScope S width.free) (inside : ∀ i ∈ inputs, InScope S i.1.free ∧ S i.2)
    (folded : ∀ e e', Env.Agree S e e' → op e = op e') (h : List.Forall₂ (Env.Agree S) threads threads') :
    reduceGroup width inputs op threads = reduceGroup width inputs op threads' := by
  cases h with
  | nil => rfl
  | @cons first first' rest rest' head tail =>
    have start : (inputs.mapM fun i => first.operand i.1) = inputs.mapM fun i => first'.operand i.1 :=
      mapM_eq_of_forall₂ (List.forall₂_same.mpr fun i mem => head.operand (inside i mem).1)
    rw [reduceGroup, reduceGroup, head.size counted, start]
    refine bind_congr fun n => bind_congr fun accs => foldlM_eq_of_forall₂ ?_ accs
    refine (forall₂_zipIdx (List.forall₂_take n (.cons head tail)) 0).imp fun el el' h accs => ?_
    have read : (inputs.mapM fun i => el.1.lookup i.2) = inputs.mapM fun i => el'.1.lookup i.2 :=
      mapM_eq_of_forall₂ (List.forall₂_same.mpr fun i mem => h.1.lookup (inside i mem).2)
    rw [reduceArgs, reduceArgs, read, h.2, folded _ _ h.1]

theorem reduce_agree {pat : Pattern} {width : Operand} {inputs : List (Operand × Name)} {op : Env → List Value → Eval (List Value)}
    (counted : InScope S width.free) (inside : ∀ i ∈ inputs, InScope S i.1.free ∧ S i.2)
    (folded : ∀ e e', Env.Agree S e e' → op e = op e') (h : List.Forall₂ (Env.Agree S) threads threads') (groupSize : Nat) :
    SameOutcome (List.Forall₂ (Env.Agree S)) (reduce pat width inputs op groupSize threads) (reduce pat width inputs op groupSize threads') := by
  have members := groups_related h groupSize
  have reduced : (groups groupSize threads).mapM (reduceGroup width inputs op) = (groups groupSize threads').mapM (reduceGroup width inputs op) :=
    mapM_eq_of_forall₂ (members.imp fun _ _ h => reduceGroup_agree counted inside folded h)
  rw [reduce, reduce, reduced]
  refine .bind_same _ fun rs => ?_
  refine SameOutcome.bind (?_ : SameOutcome (List.Forall₂ (List.Forall₂ (Env.Agree S))) _ _) fun bound bound' h => .ok (List.rel_flatten h)
  refine .mapM ((forall₂_zip members (List.forall₂_eq_eq_eq (α := List Value) ▸ rfl)).imp fun mr mr' h => .mapM (h.1.imp fun e e' agree => ?_))
  rw [h.2]
  exact agree.bindValues pat _

/-- Sizes are read where the kernel is launched, and values in its threads. -/
theorem assemble_agree {T : Scope} (h : env.Agree S env') (same : List.Forall₂ (Env.Agree T) threads threads') {ty : Ty}
    (typed : InScope S ty.free) {result : GroupResult} (outside : InScope S result.free) (inside : InScope T result.free) :
    assemble env threads ty result = assemble env' threads' ty result := by
  cases result with
  | row value =>
    have rows : (threads.mapM fun e => e.operand value) = threads'.mapM fun e => e.operand value :=
      mapM_eq_of_forall₂ (same.imp fun _ _ h => h.operand inside)
    rw [assemble, assemble, rows, h.rowShape typed]
  | write index value =>
    obtain ⟨placed, given⟩ := InScope.union_iff.mp inside
    have written (a : ArrayValue) :
        (threads.foldlM (fun out e => do out.writeRow (← e.word index) (e.operand value) .writeShape) a : Eval ArrayValue) =
          threads'.foldlM (fun out e => do out.writeRow (← e.word index) (e.operand value) .writeShape) a :=
      foldlM_eq_of_forall₂ (same.imp fun e e' h out => by rw [h.word placed, h.operand given]) a
    simp only [assemble, h.blank typed, written]
  | chunks division width perThread array =>
    simp only [GroupResult.free, InScope.union_iff, InScope.singleton_iff] at outside inside
    have cut (w p : Nat) :
        (threads.zipIdx.mapM fun et => threadChunk division w p array threads.length et.1 et.2) =
          threads'.zipIdx.mapM fun et => threadChunk division w p array threads'.length et.1 et.2 := by
      refine mapM_eq_of_forall₂ ((forall₂_zipIdx same 0).imp fun et et' h => ?_)
      rw [threadChunk, threadChunk, same.length_eq, h.1.array inside.2, h.2]
    simp only [assemble, h.size outside.1.1, h.size outside.1.2, cut, h.rowShape typed]

theorem run_agree {k : GroupKernel} {stms : Nat → List Env → Eval (List Env)} (h : env.Agree S env') (size : InScope S k.size.free)
    (returns : InScope S (freeTypes k.returns)) (result : ∀ r ∈ k.body.result, InScope S r.free)
    (body : ∀ n threads threads', List.Forall₂ (Env.Agree S) threads threads' →
      SameOutcome (List.Forall₂ (Env.Agree S)) (stms n threads) (stms n threads')) :
    k.run stms env = k.run stms env' := by
  have sizes := size.launched
  simp only [InScope.union_iff] at sizes
  rw [run, run, h.size sizes.1.1,
    h.size sizes.1.2]
  refine bind_congr fun n => bind_congr fun g => (body _ _ _ ?_).bind_eq fun final final' same => ?_
  · refine List.forall₂_map_left_iff.mpr (List.forall₂_map_right_iff.mpr (List.forall₂_same.mpr fun t _ => ?_))
    exact h.bindAll _
  · rw [results, results]
    split
    · refine mapM_eq_of_forall₂ (List.forall₂_same.mpr fun rt mem => ?_)
      obtain ⟨among, typed⟩ := List.of_mem_zip mem
      exact assemble_agree h same (InScope.gather_iff.mp returns _ typed) (result _ among) (result _ among)
    · rfl

end GroupKernel

end

/-! Programs -/

theorem InScope.of_without {S : Scope} {vs : NameSet} {own : List Name} (h : InScope S (vs.without own)) (bound : ∀ v ∈ own, S v) :
    InScope S vs := by
  intro v mem
  by_cases inner : v ∈ own
  · exact bound v inner
  · exact h v (NameSet.mem_without.mpr ⟨mem, inner⟩)

/-- The free and the bound names of a piece of program are in scope. -/
structure Encloses (S : Scope) (free : NameSet) (bound : List Name) : Prop where
  free : InScope S free
  bound : ∀ v ∈ bound, S v

section
variable {S : Scope}

theorem Encloses.body {free : NameSet} {own : List Name} {body : Body} (h : Encloses S free (own ++ body.bound))
    (inner : InScope S (body.free.without own)) : Encloses S body.free body.bound :=
  ⟨inner.of_without fun v mem => h.bound v (List.mem_append_left _ mem), fun v mem => h.bound v (List.mem_append_right _ mem)⟩

/-- Behind the first statement. -/
theorem Encloses.rest {after : NameSet} {stm : Stm} {stms : List Stm}
    (h : Encloses S (freeBefore after (stm :: stms)) (boundInStms (stm :: stms))) : Encloses S (freeBefore after stms) (boundInStms stms) := by
  obtain ⟨pat, certs, exp⟩ := stm
  constructor
  · refine (InScope.union_iff.mp h.free).1.of_without fun v mem => h.bound v ?_
    exact List.mem_append_left _ (List.mem_append_left _ mem)
  · exact fun v mem => h.bound v (List.mem_append_right _ mem)

theorem Encloses.after {after : NameSet} {stms : List Stm} (h : Encloses S (freeBefore after stms) (boundInStms stms)) : InScope S after := by
  induction stms with
  | nil => exact h.free
  | cons stm stms ih => exact ih h.rest

theorem Encloses.restGroup {after : NameSet} {stm : GroupStm} {stms : List GroupStm}
    (h : Encloses S (freeBeforeGroup after (stm :: stms)) (boundInGroupStms (stm :: stms))) :
    Encloses S (freeBeforeGroup after stms) (boundInGroupStms stms) := by
  constructor
  · refine (InScope.union_iff.mp h.free).1.of_without fun v mem => h.bound v (List.mem_append_left _ ?_)
    rw [stm.bound_eq]
    exact List.mem_append_left _ mem
  · exact fun v mem => h.bound v (List.mem_append_right _ mem)

theorem Encloses.afterGroup {after : NameSet} {stms : List GroupStm} (h : Encloses S (freeBeforeGroup after stms) (boundInGroupStms stms)) :
    InScope S after := by
  induction stms with
  | nil => exact h.free
  | cons stm stms ih => exact ih h.restGroup

/-- The types of the results are read where a kernel is launched; a name in them may be that of a parameter. -/
theorem Encloses.ret {op : Lambda} (h : Encloses S op.free op.bound) : InScope S (freeTypes op.ret) := by
  obtain ⟨params, body, ret⟩ := op
  have all := (InScope.union_iff.mp h.free).1.of_without fun v mem => h.bound v (List.mem_append_left _ mem)
  exact (InScope.union_iff.mp all).2

/-- The annotations of a pattern mention free names and names of the pattern. -/
theorem Pattern.values_inScope {pat : Pattern} (inside : InScope S pat.free) (bound : ∀ v ∈ pat.names, S v) :
    ∀ b ∈ pat.values, InScope S b.ty.free := by
  intro b mem
  have all := InScope.gather_iff.mp (inside.of_without bound)
  exact (InScope.union_iff.mp (all b (List.mem_append_right _ mem))).1

mutual

theorem Exp.eval_agree : ∀ (e : Exp) {env env' : Env}, Encloses S e.free e.bound → env.Agree S env' → e.eval env = e.eval env'
  | .operand x, _, _, c, h => by rw [Exp.eval, Exp.eval, h.operand c.free]
  | .binary op x y, _, _, c, h => by
    obtain ⟨left, right⟩ := InScope.union_iff.mp c.free
    rw [Exp.eval, Exp.eval, h.scalar left, h.scalar right]
  | .compare op x y, _, _, c, h => by
    obtain ⟨left, right⟩ := InScope.union_iff.mp c.free
    rw [Exp.eval, Exp.eval, h.scalar left, h.scalar right]
  | .index array indices, _, _, c, h => by
    obtain ⟨base, places⟩ := InScope.union_iff.mp c.free
    rw [Exp.eval, Exp.eval, h.array (InScope.singleton_iff.mp base), h.words places]
  | .update array indices value, _, _, c, h => by
    obtain ⟨found, given⟩ := InScope.union_iff.mp c.free
    obtain ⟨base, places⟩ := InScope.union_iff.mp found
    rw [Exp.eval, Exp.eval, h.array (InScope.singleton_iff.mp base), h.words places, h.operand given]
  | .iota count start stride, _, _, c, h => by
    obtain ⟨bounds, apart⟩ := InScope.union_iff.mp c.free
    obtain ⟨many, first⟩ := InScope.union_iff.mp bounds
    rw [Exp.eval, Exp.eval, h.size many, h.word first, h.word apart]
  | .replicate shape value, _, _, c, h => by
    obtain ⟨dims, given⟩ := InScope.union_iff.mp c.free
    rw [Exp.eval, Exp.eval, h.sizes dims, h.operand given]
  | .reshape shape array, _, _, c, h => by
    obtain ⟨dims, base⟩ := InScope.union_iff.mp c.free
    rw [Exp.eval, Exp.eval, h.array (InScope.singleton_iff.mp base), h.sizes dims]
  | .rearrange perm array, _, _, c, h => by rw [Exp.eval, Exp.eval, h.array (InScope.singleton_iff.mp c.free)]
  | .copy array, _, _, c, h => by rw [Exp.eval, Exp.eval, h.lookup (InScope.singleton_iff.mp c.free)]
  | .alloc size space, _, _, c, h => by rw [Exp.eval, Exp.eval, h.word c.free]
  | .branch cond onTrue onFalse ret, _, _, c, h => by
    obtain ⟨inner, _⟩ := InScope.union_iff.mp c.free
    obtain ⟨inner, no⟩ := InScope.union_iff.mp inner
    obtain ⟨chosen, yes⟩ := InScope.union_iff.mp inner
    rw [Exp.eval, Exp.eval, h.scalar chosen,
      Body.eval_agree onTrue ⟨yes, fun v mem => c.bound v (List.mem_append_left _ mem)⟩ h,
      Body.eval_agree onFalse ⟨no, fun v mem => c.bound v (List.mem_append_right _ mem)⟩ h]
  | .loop context values index bound body, env, env', c, h => by
    obtain ⟨inner, counted⟩ := InScope.union_iff.mp c.free
    obtain ⟨inner, started⟩ := InScope.union_iff.mp inner
    have covered : Encloses S body.free body.bound :=
      c.body fun v mem => inner v (by simp only [NameSet.mem_without, NameSet.mem_union] at mem ⊢; exact ⟨.inl mem.1, mem.2⟩)
    have inits : ((context ++ values).mapM fun m => env.operand m.2) = (context ++ values).mapM fun m => env'.operand m.2 :=
      mapM_eq_of_forall₂ (List.forall₂_same.mpr fun m mem => h.operand (InScope.gather_iff.mp started _ (List.mem_map_of_mem mem)))
    -- each round starts from the environment of the loop, so that the two rounds agree whatever the rounds before gave
    have round : loopStep ((context ++ values).map (·.1.name)) index (fun e => body.eval e) env =
        loopStep ((context ++ values).map (·.1.name)) index (fun e => body.eval e) env' := by
      funext i now
      rw [loopStep, loopStep, Body.eval_agree body covered ((h.bind index (.count i)).bindAll _)]
    rw [Exp.eval, Exp.eval]
    simp only [inits, h.word counted, round]
  | .launch kernel, _, _, c, h => Kernel.eval_agree kernel c h

theorem evalStms_agree : ∀ (stms : List Stm) {after : NameSet} {env env' : Env}, Encloses S (freeBefore after stms) (boundInStms stms) →
    env.Agree S env' → SameOutcome (Env.Agree S) (evalStms env stms) (evalStms env' stms)
  | [], _, _, _, _, h => .ok h
  | ⟨pat, certs, exp⟩ :: stms, _, env, env', c, h => by
    have first := InScope.union_iff.mp (InScope.union_iff.mp c.free).2
    have computed : exp.eval env = exp.eval env' := by
      refine Exp.eval_agree exp ⟨first.2, fun v mem => c.bound v ?_⟩ h
      exact List.mem_append_left _ (List.mem_append_right _ mem)
    rw [evalStms, evalStms, computed]
    refine .bind_same _ fun values => ?_
    exact (h.bindValues pat values).bind fun e e' h => evalStms_agree stms c.rest h

theorem Body.eval_agree : ∀ (body : Body) {env env' : Env}, Encloses S body.free body.bound → env.Agree S env' →
    body.eval env = body.eval env'
  | ⟨stms, result⟩, _, _, c, h => by
    rw [Body.eval, Body.eval]
    exact (evalStms_agree stms c h).bind_eq fun e e' h => h.operands c.after

theorem Lambda.eval_agree : ∀ (op : Lambda) {env env' : Env}, Encloses S op.free op.bound → env.Agree S env' → op.eval env = op.eval env'
  | ⟨params, body, ret⟩, _, _, c, h => by
    obtain ⟨inner, _⟩ := InScope.union_iff.mp c.free
    have covered : Encloses S body.free body.bound :=
      c.body fun v mem => inner v (by simp only [NameSet.mem_without, NameSet.mem_union] at mem ⊢; exact ⟨.inl mem.1, mem.2⟩)
    funext args
    rw [Lambda.eval, Lambda.eval]
    exact (h.bindParams params args).bind_eq fun e e' h => Body.eval_agree body covered h

theorem Kernel.eval_agree : ∀ (k : Kernel) {env env' : Env}, Encloses S k.free k.bound → env.Agree S env' → k.eval env = k.eval env'
  | .map ⟨certs, width, thread, space, inputs, returns, body⟩, _, _, c, h => by
    obtain ⟨operands, inner⟩ := InScope.union_iff.mp c.free
    obtain ⟨sizes, extents⟩ := InScope.union_iff.mp operands
    have all := inner.of_without fun v mem => c.bound v (List.mem_append_left _ mem)
    obtain ⟨all, typed⟩ := InScope.union_iff.mp all
    obtain ⟨free, read⟩ := InScope.union_iff.mp all
    have covered : Encloses S body.free body.bound := ⟨free, fun v mem => c.bound v (List.mem_append_right _ mem)⟩
    rw [Kernel.eval, Kernel.eval]
    exact MapKernel.run_agree h (InScope.union_iff.mp sizes).2 extents (InScope.gather_iff.mp read) typed
      fun _ _ h => Body.eval_agree body covered h
  | .scan ⟨certs, width, size, combine, fold, neutral, arrays⟩, _, _, c, h => by
    have free := c.free
    simp only [Kernel.free, InScope.union_iff] at free
    obtain ⟨⟨⟨⟨⟨⟨_, counted⟩, _⟩, _⟩, folds⟩, started⟩, read⟩ := free
    rw [Kernel.eval, Kernel.eval, Lambda.eval_agree fold ⟨folds, fun v mem => c.bound v (List.mem_append_right _ mem)⟩ h]
    exact ScanKernel.run_agree h counted started read _
  | .chunked ⟨certs, width, size, division, op, arrays⟩, _, env', c, h => by
    have free := c.free
    simp only [Kernel.free, InScope.union_iff] at free
    obtain ⟨⟨⟨⟨_, counted⟩, sized⟩, applied⟩, read⟩ := free
    have covered : Encloses S op.free op.bound := ⟨applied, c.bound⟩
    rw [Kernel.eval, Kernel.eval, Lambda.eval_agree op covered h]
    exact ChunkedKernel.run_agree (k := ⟨certs, width, size, division, op, arrays⟩) h counted sized read covered.ret (op.eval env')
  | .scatter ⟨certs, width, op, arrays, dests⟩, _, _, c, h => by
    have free := c.free
    simp only [Kernel.free, InScope.union_iff] at free
    obtain ⟨⟨⟨⟨_, counted⟩, applied⟩, read⟩, written⟩ := free
    rw [Kernel.eval, Kernel.eval, Lambda.eval_agree op ⟨applied, c.bound⟩ h]
    refine ScatterKernel.run_agree h counted read (fun d mem => ?_) _
    exact InScope.singleton_iff.mp (InScope.union_iff.mp (InScope.gather_iff.mp written d mem)).2
  | .group ⟨certs, size, space, returns, ⟨stms, result⟩⟩, _, _, c, h => by
    obtain ⟨outer, inner⟩ := InScope.union_iff.mp c.free
    obtain ⟨outer, typed⟩ := InScope.union_iff.mp outer
    have covered : Encloses S (freeBeforeGroup (NameSet.gather GroupResult.free result) stms) (boundInGroupStms stms) :=
      ⟨inner.of_without fun v mem => c.bound v (List.mem_append_left _ mem), fun v mem => c.bound v (List.mem_append_right _ mem)⟩
    rw [Kernel.eval, Kernel.eval]
    exact GroupKernel.run_agree h (InScope.union_iff.mp outer).2 typed (InScope.gather_iff.mp covered.afterGroup)
      fun n _ _ same => evalGroupStms_agree stms covered same n
  | .numGroups, _, _, _, _ | .groupSize, _, _, _, _ => rfl

theorem evalGroupStms_agree : ∀ (stms : List GroupStm) {after : NameSet} {threads threads' : List Env},
    Encloses S (freeBeforeGroup after stms) (boundInGroupStms stms) → List.Forall₂ (Env.Agree S) threads threads' → ∀ groupSize,
      SameOutcome (List.Forall₂ (Env.Agree S)) (evalGroupStms groupSize stms threads) (evalGroupStms groupSize stms threads')
  | [], _, _, _, _, same, _ => .ok same
  | .split size chunks division width perThread arrays :: stms, _, _, _, c, same, groupSize => by
    have first := (InScope.union_iff.mp c.free).2
    simp only [GroupStm.free, InScope.union_iff] at first
    rw [evalGroupStms, evalGroupStms]
    refine SameOutcome.bind (?_ : SameOutcome (List.Forall₂ (Env.Agree S)) _ _) fun _ _ same => evalGroupStms_agree stms c.restGroup same groupSize
    refine .mapM ((forall₂_zipIdx same 0).imp fun et et' h => ?_)
    rw [h.2, same.length_eq]
    exact GroupKernel.split_agree h.1 first.1.1.2 first.1.2 first.2 _ _
  | .thread pat only body :: stms, _, _, _, c, same, groupSize => by
    have first := (InScope.union_iff.mp c.free).2
    simp only [GroupStm.free, InScope.union_iff] at first
    have own (v : Name) (mem : v ∈ pat.names) : S v := c.bound v (List.mem_append_left _ (List.mem_append_left _ mem))
    have inner (v : Name) (mem : v ∈ body.bound) : S v := c.bound v (List.mem_append_left _ (List.mem_append_right _ mem))
    rw [evalGroupStms, evalGroupStms]
    refine SameOutcome.bind (?_ : SameOutcome (List.Forall₂ (Env.Agree S)) _ _) fun _ _ same => evalGroupStms_agree stms c.restGroup same groupSize
    refine .mapM ((forall₂_zipIdx same 0).imp fun et et' h => ?_)
    rw [h.2]
    exact GroupKernel.runThread_agree h.1 (Pattern.values_inScope first.1.1 own) first.1.2 (Body.eval_agree body ⟨first.2, inner⟩ h.1) _ _
  | .reduce pat width op inputs :: stms, _, _, _, c, same, groupSize => by
    have first := (InScope.union_iff.mp c.free).2
    simp only [GroupStm.free, InScope.union_iff, InScope.gather_iff, InScope.singleton_iff] at first
    have inner (v : Name) (mem : v ∈ op.bound) : S v := c.bound v (List.mem_append_left _ (List.mem_append_right _ mem))
    rw [evalGroupStms, evalGroupStms]
    refine (GroupKernel.reduce_agree first.1.1.2 first.2 (fun e e' h => ?_) same groupSize).bind
      fun _ _ same => evalGroupStms_agree stms c.restGroup same groupSize
    exact Lambda.eval_agree op ⟨first.1.2, inner⟩ h

end

end

/-- Whatever an evaluation reads is free in the body or bound in it: where two environments agree on these names, the body has the same
values in both or ends with the same error. -/
theorem Body.eval_eq_of_agree (body : Body) {env env' : Env}
    (agree : ∀ v, v ∈ body.free ∨ v ∈ body.bound → env.get? v = env'.get? v) : body.eval env = body.eval env' := by
  have all : Encloses (fun v => v ∈ body.free ∨ v ∈ body.bound) body.free body.bound := ⟨fun _ => .inl, fun _ => .inr⟩
  exact body.eval_agree all agree

/-- Adds a number to the indices of two threads and takes one of the sums. -/
def sumOfThread : Body :=
  let word (n : Int64) : Operand := .const (.i64 n)
  let kernel : MapKernel := ⟨[], word 2, ⟨"t", 3⟩, [(⟨"i", 4⟩, word 2)], [], [(.scalar .i64, [0])],
    ⟨[.ofWord ⟨"y", 5⟩ (.binary .add (.var ⟨"x", 0⟩) (.var ⟨"i", 4⟩))], [.var ⟨"y", 5⟩]⟩⟩
  ⟨[⟨.single ⟨"ys", 2⟩ (.array .i64 [word 2] false), [], .launch (.map kernel)⟩,
    .ofWord ⟨"r", 6⟩ (.index ⟨"ys", 2⟩ [.var ⟨"n", 1⟩])], [.var ⟨"r", 6⟩]⟩

theorem sumOfThread_eval_eq :
    sumOfThread.eval ⟨[(⟨"x", 0⟩, .word 5), (⟨"n", 1⟩, .word 1)]⟩ = .ok [.word 6] ∧
      sumOfThread.eval ⟨[(⟨"z", 7⟩, .word 8), (⟨"x", 0⟩, .word 5), (⟨"n", 1⟩, .word 1)]⟩ = .ok [.word 6] := by
  have unread : ∀ v ∈ sumOfThread.free.toList ++ sumOfThread.bound, v ≠ ⟨"z", 7⟩ := by decide
  have first : sumOfThread.eval ⟨[(⟨"x", 0⟩, .word 5), (⟨"n", 1⟩, .word 1)]⟩ = .ok [.word 6] := rfl
  refine ⟨first, (sumOfThread.eval_eq_of_agree fun v mem => ?_).trans first⟩
  exact (Env.get?_bind _ _ v _).trans (if_neg (unread v (List.mem_append.mpr mem)))

end ArrayKernels
