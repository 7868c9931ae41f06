import ArrayKernels.Proofs.ExpandedKernel
import ArrayKernels.Proofs.Frames
import ArrayKernels.Proofs.Rebasing

/-! The threads that address expanded blocks. Expansion takes the first name that a thread is given for
its number among those that a shared block has room for. That is so for map, chunked and group
kernels; the fold of a scan is given the number of an element instead, of which there may be more. -/
namespace ArrayKernels

namespace Kernel

/-- The name that expansion takes for the number of a thread. -/
def threadName : Kernel → Option Name
  | map k => some k.thread
  | scan k => k.fold.params.head?.map Binder.name
  | chunked k => k.op.params.head?.map Binder.name
  | group k => some k.space.thread
  | _ => none

/-- In the course of an evaluation of the kernel, the code of a thread is at a statement in the
environment `now`, or begins there. -/
def Visits (k : Kernel) (env now : Env) : Prop :=
  ∃ inner thread, Enters env (.launch k) inner thread ∧ (now = thread ∨ ∃ stm, Executes thread inner now stm)

/-- A scan has no more elements than a shared block has parts. -/
def FewElements (k : Kernel) (env : Env) (threads : Int64) : Prop :=
  ∀ s width, k = scan s → env.size s.width = .ok width → (width : Int) ≤ max threads.toInt 0

end Kernel

/-- The name is bound to the number of one of the threads. -/
def Env.ThreadBelow (env : Env) (v : Name) (threads : Int64) : Prop :=
  ∃ t : Int64, env.get? v = some (.scalar (.i64 t)) ∧ 0 ≤ t.toInt ∧ t.toInt < threads.toInt

/-- The values of the names in index functions. -/
def Env.index (env : Env) (v : Name) : Option Int64 := do (← (← env.get? v).asScalar).asWord

theorem Env.size_eq_ok {env : Env} {x : Operand} {n : Nat} (h : env.size x = .ok n) :
    ∃ w, env.word x = .ok w ∧ 0 ≤ w.toInt ∧ w.toInt = n := by
  obtain ⟨w, word, h⟩ := bind_eq_ok.mp h
  split at h
  · cases h
  · rename_i nonnegative
    cases h
    rw [Int64.lt_iff_toInt_lt, Int64.toInt_zero, Int.not_lt] at nonnegative
    exact ⟨w, word, nonnegative, (Int.toNat_of_nonneg nonnegative).symm⟩

/-- The first parameter has the first argument, unless another parameter hides it. -/
theorem Env.bindParams_first {env next : Env} {first : Binder} {params : List Binder} {x : Value} {args : List Value}
    (h : env.bindParams (first :: params) (x :: args) = .ok next) (distinct : ((first :: params).map Binder.name).Nodup) :
    next.get? first.name = some x := by
  rw [List.map_cons, List.nodup_cons] at distinct
  rw [bindParams] at h
  split at h
  · cases h
    rw [List.map_cons, List.zip_cons_cons, bindAll_cons, get?_bindAll_of_not_mem, get?_bind, if_pos rfl]
    intro mem
    obtain ⟨b, inside, same⟩ := List.mem_map.mp mem
    exact distinct.1 (same ▸ (List.of_mem_zip inside).1)
  · cases h

/-- How often a kernel runs the code of its threads. -/
def Kernel.runs : Kernel → Option Operand
  | map k => some k.width
  | scan k => some k.width
  | chunked k => some k.size.threads
  | group k => some k.size.threads
  | _ => none

/-- Where the code of a thread begins, its name is bound to the number of one of the runs. -/
theorem Kernel.thread_numbered {k : Kernel} {env thread : Env} {inner : Body} {v : Name}
    (h : Enters env (.launch k) inner thread) (distinct : k.bound.Nodup) (named : k.threadName = some v) :
    v ∉ inner.bound ∧ ∃ x count t, k.runs = some x ∧ env.size x = .ok count ∧ t < count ∧
      thread.get? v = some (.count t) := by
  cases h with
  | @map k _ fed =>
    cases named
    obtain ⟨width, dims, t, sized, _, reached, made⟩ := fed
    have names : (k.threadNames ++ k.body.bound).Nodup := by
      obtain ⟨certs, width, thread, space, inputs, returns, body⟩ := k
      exact distinct
    obtain ⟨own, _, apart⟩ := List.nodup_append.mp names
    refine ⟨fun bound => apart _ List.mem_cons_self _ bound rfl, k.width, width, t, rfl, sized, ?_, ?_⟩
    · exact List.mem_range.mp reached.mem
    · exact MapKernel.threadEnv_thread made own
  | @scan k _ _ fed bound =>
    obtain ⟨width, arrays, start, i, accs, elems, sized, _, _, below, _, _, rfl⟩ := fed
    obtain ⟨certs, w, size, combine, ⟨params, body, ret⟩, neutral, names⟩ := k
    obtain _ | ⟨first, params⟩ := params
    · cases named
    cases named
    obtain ⟨_, distinct, _⟩ := List.nodup_append.mp distinct
    obtain ⟨own, _, apart⟩ := List.nodup_append.mp distinct
    exact ⟨fun bound => apart _ List.mem_cons_self _ bound rfl, w, width, i, rfl, sized, below,
      Env.bindParams_first bound own⟩
  | @chunked k _ _ fed bound =>
    obtain ⟨width, threads, chunk, arrays, t, chunks, _, counted, _, _, reached, _, rfl⟩ := fed
    obtain ⟨certs, w, size, division, ⟨params, body, ret⟩, names⟩ := k
    obtain _ | ⟨first, params⟩ := params
    · cases named
    cases named
    obtain ⟨own, _, apart⟩ := List.nodup_append.mp distinct
    exact ⟨fun bound => apart _ List.mem_cons_self _ bound rfl, size.threads, threads, t, rfl, counted,
      List.mem_range.mp reached.mem, Env.bindParams_first bound own⟩
  | scatter fed bound => cases named
  | @groupThread k threads _ _ _ _ _ body _ _ counted _ split done fed =>
    cases named
    obtain ⟨t, below, known⟩ := (GroupKernel.thread_known split done fed.mem).2 distinct
    refine ⟨fun bound => ?_, k.size.threads, threads, t, rfl, counted, below, known⟩
    refine GroupKernel.not_mem_ownNames distinct ?_ (List.mem_append_left _ List.mem_cons_self)
    refine List.mem_flatMap.mpr ⟨_, split ▸ List.mem_append_right _ List.mem_cons_self, ?_⟩
    exact bound
  | @groupReduce k threads _ _ _ _ _ op _ _ _ _ _ counted _ split done fed bound =>
    cases named
    obtain ⟨t, below, known⟩ := (GroupKernel.thread_known split done fed.mem).2 distinct
    have apart (bound : k.space.thread ∈ op.bound) : False := by
      refine GroupKernel.not_mem_ownNames distinct ?_ (List.mem_append_left _ List.mem_cons_self)
      refine List.mem_flatMap.mpr ⟨_, split ▸ List.mem_append_right _ List.mem_cons_self, ?_⟩
      exact bound
    obtain ⟨params, body, ret⟩ := op
    refine ⟨fun bound => apart (List.mem_append_right _ bound), k.size.threads, threads, t, rfl, counted, below, ?_⟩
    exact (Env.bindParams_frame bound fun param => apart (List.mem_append_left _ param)).trans known

/-- Wherever the code of a thread is, its number and all that the kernel does not bind are as they were. -/
theorem Kernel.Visits.known {k : Kernel} {env now : Env} {v : Name} (h : k.Visits env now) (distinct : k.bound.Nodup)
    (named : k.threadName = some v) :
    (∀ w, w ∉ k.bound → now.get? w = env.get? w) ∧ ∃ x count t, k.runs = some x ∧ env.size x = .ok count ∧ t < count ∧
      now.get? v = some (.count t) := by
  obtain ⟨inner, thread, entered, here⟩ := h
  obtain ⟨apart, x, count, t, runs, sized, below, number⟩ := Kernel.thread_numbered entered distinct named
  have kept (w : Name) (other : w ∉ inner.bound) : now.get? w = thread.get? w := by
    obtain rfl | ⟨stm, executed⟩ := here
    · rfl
    · exact executed.frame.2 w other
  refine ⟨fun w other => ?_, x, count, t, runs, sized, below, (kept v apart).trans number⟩
  rw [kept w fun bound => other (entered.bound_subset w bound), entered.frame other]

/-! A scan that has a value runs its fold on all elements -/

theorem iterate_reaches {σ : Type} {step : Nat → σ → Eval σ} {n i j : Nat} {s t : σ} (h : iterate step n i s = .ok t)
    (below : j < n) : ∃ c d, iterate step j i s = .ok c ∧ step (i + j) c = .ok d := by
  induction n generalizing i j s with
  | zero => cases below
  | succ n ih =>
    obtain ⟨next, first, rest⟩ := bind_eq_ok.mp h
    cases j with
    | zero => exact ⟨s, next, rfl, first⟩
    | succ j =>
      obtain ⟨c, d, before, here⟩ := ih rest (Nat.lt_of_succ_lt_succ below)
      refine ⟨c, d, bind_eq_ok.mpr ⟨next, first, before⟩, ?_⟩
      rwa [← Nat.add_assoc, Nat.add_right_comm]

theorem iterate_recorded {σ : Type} {step : Nat → σ → Eval σ} {n i : Nat} {s : σ} {past : List σ} {c : σ × List σ}
    (h : iterate (fun i (p : σ × List σ) => do let next ← step i p.1; .ok (next, next :: p.2)) n i (s, past) = .ok c) :
    iterate step n i s = .ok c.1 := by
  induction n generalizing i s past with
  | zero =>
    cases h
    rfl
  | succ n ih =>
    obtain ⟨between, first, rest⟩ := bind_eq_ok.mp h
    obtain ⟨next, stepped, made⟩ := bind_eq_ok.mp first
    cases made
    exact bind_eq_ok.mpr ⟨next, stepped, ih rest⟩

theorem scanFrom_reaches {σ : Type} {step : Nat → σ → Eval σ} {n i j : Nat} {s : σ} {all : List σ}
    (h : scanFrom step n i s = .ok all) (below : j < n) : ∃ c d, iterate step j i s = .ok c ∧ step (i + j) c = .ok d := by
  obtain ⟨last, ran, _⟩ := bind_eq_ok.mp h
  obtain ⟨c, d, before, here⟩ := iterate_reaches ran below
  obtain ⟨next, stepped, _⟩ := bind_eq_ok.mp here
  exact ⟨c.1, next, iterate_recorded before, stepped⟩

/-- The fold is run on every element. -/
theorem ScanKernel.visits {k : ScanKernel} {env : Env} {xs : List Value} {width i : Nat}
    (ran : (Kernel.scan k).eval env = .ok xs) (sized : env.size k.width = .ok width) (below : i < width) :
    ∃ args thread, env.bindParams k.fold.params (.count i :: args) = .ok thread ∧
      Enters env (.launch (.scan k)) k.fold.body thread := by
  have run : k.run (fun args => k.fold.eval env args) env = .ok xs := by
    obtain ⟨certs, width, size, combine, fold, neutral, arrays⟩ := k
    exact ran
  obtain ⟨_, sized', run⟩ := bind_eq_ok.mp run
  cases sized.symm.trans sized'
  obtain ⟨arrays, read, run⟩ := bind_eq_ok.mp run
  obtain ⟨start, begun, run⟩ := bind_eq_ok.mp run
  obtain ⟨steps, scanned, run⟩ := bind_eq_ok.mp run
  obtain ⟨accs, next, done, here⟩ := scanFrom_reaches scanned below
  rw [Nat.zero_add] at here
  obtain ⟨elems, taken, here⟩ := bind_eq_ok.mp here
  obtain ⟨values, folded, _⟩ := bind_eq_ok.mp here
  have fed : k.Feeds (fun args => k.fold.eval env args) env (.count i :: accs ++ elems) :=
    ⟨width, arrays, start, i, accs, elems, sized, read, begun, below, done, taken, rfl⟩
  obtain ⟨certs, w, size, combine, ⟨params, body, ret⟩, neutral, names⟩ := k
  obtain ⟨thread, bound, _⟩ := bind_eq_ok.mp folded
  exact ⟨accs ++ elems, thread, bound, .scan fed bound⟩

theorem ScanKernel.fold_numbered (k : ScanKernel) {env thread : Env} {v : Name} {x : Value} {args : List Value}
    (distinct : (Kernel.scan k).bound.Nodup) (named : (Kernel.scan k).threadName = some v)
    (bound : env.bindParams k.fold.params (x :: args) = .ok thread) : thread.get? v = some x := by
  obtain ⟨certs, w, size, combine, ⟨params, body, ret⟩, neutral, names⟩ := k
  obtain _ | ⟨first, params⟩ := params
  · cases named
  cases named
  obtain ⟨_, distinct, _⟩ := List.nodup_append.mp distinct
  exact Env.bindParams_first bound (List.nodup_append.mp distinct).1

/-- Expansion lifts allocations out of code whose threads are numbered by `v` among as many as `x` says. -/
def Lift.MadeFor (lift : Lift) (v : Name) (x : Operand) : Prop :=
  ∃ options label inside sites existentials s stms t,
    liftSites options label v x inside sites existentials s = .ok ((stms, some lift), t)

theorem Lift.MadeFor.place {lift : Lift} {v : Name} {x : Operand} (h : lift.MadeFor v x) :
    ∃ n, IndexExpr.ofOperand x = some n ∧ lift.place = ⟨.var v, n⟩ := by
  obtain ⟨_, _, _, _, _, _, _, _, made⟩ := h
  have place := ((liftSites_eq_ok made).2 lift rfl).1
  rw [threadPlace] at place
  split at place
  · rename_i n known
    exact ⟨n, known, (Except.ok.inj place).symm⟩
  · cases place

theorem Env.index_ofOperand {env now : Env} {x : Operand} {n : IndexExpr} {w : Int64} (known : IndexExpr.ofOperand x = some n)
    (value : env.word x = .ok w) (kept : ∀ v ∈ x.free, now.get? v = env.get? v) : n.eval now.index = some w := by
  obtain ⟨c, scalar, value⟩ := bind_eq_ok.mp value
  have word : c.asWord = some w := by
    split at value
    · cases value
      assumption
    · cases value
  obtain ⟨y, read, scalar⟩ := bind_eq_ok.mp scalar
  obtain rfl : y = .scalar c := by
    split at scalar
    · cases scalar
      rfl
    · cases scalar
  cases x with
  | const d =>
    cases read
    simp only [IndexExpr.ofOperand, word, Option.map_some, Option.some.injEq] at known
    subst known
    rfl
  | var v =>
    cases known
    have there := Env.lookup_eq_ok.mp read
    simp [IndexExpr.eval, Env.index, kept v (NameSet.mem_singleton.mpr rfl), there, Value.asScalar, word]

/-- Where a kernel runs few enough elements, the number of a thread is one that the shared blocks have
room for. -/
theorem Kernel.Visits.threadBelow {k : Kernel} {env now : Env} {v : Name} {x : Operand} {threads : Int64}
    (h : k.Visits env now) (distinct : k.bound.Nodup) (named : k.threadName = some v) (counted : k.threadCount = some x)
    (value : env.word x = .ok threads) (few : k.FewElements env threads) : now.ThreadBelow v threads := by
  obtain ⟨_, y, count, t, runs, sized, below, number⟩ := h.known distinct named
  obtain ⟨w, word, _, whole⟩ := Env.size_eq_ok sized
  have most : (count : Int) ≤ max threads.toInt 0 := by
    cases k with
    | scan s =>
      cases runs
      exact few s count rfl sized
    | map s =>
      cases runs
      cases counted
      cases word.symm.trans value
      omega
    | chunked s =>
      cases runs
      cases counted
      cases word.symm.trans value
      omega
    | group s =>
      cases runs
      cases counted
      cases word.symm.trans value
      omega
    | scatter s => cases runs
    | numGroups => cases runs
    | groupSize => cases runs
  have fits := w.toInt_lt
  have same : (Int64.ofNat t).toInt = t := Int64.toInt_ofNat_of_lt (by omega)
  exact ⟨.ofNat t, number, by omega, by omega⟩

/-- A scan over three elements whose fold has a block and gives the number that it finds its part by. -/
def numberingScan (threads : Int64) : Kernel :=
  let word (n : Int64) : Operand := .const (.i64 n)
  let i : Binder := ⟨⟨"i", 0⟩, .scalar .i64, none⟩
  let acc : Binder := ⟨⟨"acc", 1⟩, .scalar .i64, none⟩
  let fold : Body := ⟨[⟨.single ⟨"block", 2⟩ (.mem (word 8) .default), [], .alloc (word 8) .default⟩], [.var i.name]⟩
  let size : LaunchSize := ⟨word 1, word threads, word 1, word 3, word 1, word threads⟩
  .scan ⟨[], word 3, size, ⟨[], ⟨[], []⟩, []⟩, ⟨[i, acc], fold, [.scalar .i64]⟩, [word 0], []⟩

end ArrayKernels
