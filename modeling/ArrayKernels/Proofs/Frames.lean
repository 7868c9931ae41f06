import ArrayKernels.Proofs.GroupFollows
import ArrayKernels.Proofs.Run

/-! What the parts of a program leave alone: inside code that is run in the course of an evaluation, all
names that the code does not bind have the values that they had outside. -/
namespace ArrayKernels

theorem evalStms_frame {env next : Env} {stms : List Stm} {v : Name} (h : evalStms env stms = .ok next)
    (other : v ∉ boundInStms stms) : next.get? v = env.get? v := by
  induction stms generalizing env with
  | nil =>
    cases h
    rfl
  | cons stm stms ih =>
    obtain ⟨pat, certs, exp⟩ := stm
    rw [boundInStms, List.mem_append, List.mem_append, not_or, not_or] at other
    obtain ⟨values, _, h⟩ := bind_eq_ok.mp h
    obtain ⟨settled, bound, h⟩ := bind_eq_ok.mp h
    exact (ih h other.2).trans (Env.bindValues_frame bound other.1.1)

theorem Env.bindParams_frame {env next : Env} {params : List Binder} {args : List Value} {v : Name}
    (h : env.bindParams params args = .ok next) (other : v ∉ params.map Binder.name) : next.get? v = env.get? v := by
  rw [bindParams] at h
  split at h
  · cases h
    refine Env.get?_bindAll_of_not_mem env fun mem => other ?_
    obtain ⟨b, inside, rfl⟩ := List.mem_map.mp mem
    exact (List.of_mem_zip inside).1
  · cases h

theorem MapKernel.bindInputs_frame {env next : Env} {inputs : List MapInput} {v : Name} (h : bindInputs env inputs = .ok next)
    (other : v ∉ inputs.map fun i => i.param.name) : next.get? v = env.get? v := by
  induction inputs generalizing env with
  | nil =>
    cases h
    rfl
  | cons i inputs ih =>
    rw [List.map_cons, List.mem_cons, not_or] at other
    rw [bindInputs, List.foldlM_cons] at h
    obtain ⟨env₁, first, h⟩ := bind_eq_ok.mp h
    obtain ⟨a, _, first⟩ := bind_eq_ok.mp first
    obtain ⟨is, _, first⟩ := bind_eq_ok.mp first
    obtain ⟨x, _, first⟩ := bind_eq_ok.mp first
    cases first
    rw [ih h other.2, Env.get?_bind, if_neg other.1]

/-- What a thread knows before it reads its inputs. -/
theorem MapKernel.place_frame {k : MapKernel} {v : Name} (dims : List Nat) (env : Env) (t : Nat) (other : v ∉ k.placeNames) :
    ((env.bind k.thread (.count t)).bindAll ((k.space.map Prod.fst).zip ((coordinates t dims).2.map Value.count)).reverse).get? v =
      env.get? v := by
  rw [placeNames, List.mem_cons, not_or] at other
  rw [Env.get?_bindAll_of_not_mem, Env.get?_bind, if_neg other.1]
  intro mem
  obtain ⟨b, inside, rfl⟩ := List.mem_map.mp mem
  exact other.2 (List.of_mem_zip (List.mem_reverse.mp inside)).1

theorem MapKernel.threadEnv_frame {k : MapKernel} {dims : List Nat} {env thread : Env} {t : Nat} {v : Name}
    (h : k.threadEnv dims env t = .ok thread) (other : v ∉ k.threadNames) : thread.get? v = env.get? v := by
  rw [threadNames, List.mem_append, not_or] at other
  rw [bindInputs_frame h other.2, place_frame dims env t other.1]

/-- The thread knows its number, unless another of its names hides it. -/
theorem MapKernel.threadEnv_thread {k : MapKernel} {dims : List Nat} {env thread : Env} {t : Nat}
    (h : k.threadEnv dims env t = .ok thread) (distinct : k.threadNames.Nodup) : thread.get? k.thread = some (.count t) := by
  rw [threadNames, List.cons_append, List.nodup_cons, List.mem_append, not_or] at distinct
  rw [bindInputs_frame h distinct.1.2, Env.get?_bindAll_of_not_mem, Env.get?_bind, if_pos rfl]
  intro mem
  obtain ⟨b, inside, same⟩ := List.mem_map.mp mem
  exact distinct.1.1 (same ▸ (List.of_mem_zip (List.mem_reverse.mp inside)).1)

/-! Group kernels -/

theorem GroupKernel.mem_blocks {α : Type} {size n : Nat} {xs block : List α} {x : α} (mem : block ∈ blocks size n xs)
    (inside : x ∈ block) : x ∈ xs := by
  induction n generalizing xs with
  | zero => cases mem
  | succ n ih =>
    obtain rfl | later := List.mem_cons.mp mem
    · exact List.mem_of_mem_take inside
    · exact List.mem_of_mem_drop (ih later)

/-- A statement of a group kernel changes a thread in the names of the statement only. -/
theorem GroupStm.eval_frame {stm : GroupStm} {groupSize : Nat} {threads next : List Env}
    (h : evalGroupStms groupSize [stm] threads = .ok next) {after : Env} (mem : after ∈ next) :
    ∃ before ∈ threads, ∀ v, v ∉ stm.names → after.get? v = before.get? v := by
  cases stm with
  | split size chunks division width perThread arrays =>
    obtain ⟨_, ran, same⟩ := bind_eq_ok.mp h
    cases same
    obtain ⟨⟨before, t⟩, among, ran⟩ := exists_of_mem_right (mapM_eq_ok.mp ran) mem
    obtain ⟨width, _, ran⟩ := bind_eq_ok.mp ran
    obtain ⟨perThread, _, ran⟩ := bind_eq_ok.mp ran
    obtain ⟨parts, cut, ran⟩ := bind_eq_ok.mp ran
    cases ran
    refine ⟨before, List.fst_mem_of_mem_zipIdx among, fun v other => Env.get?_bindAll_of_not_mem _ fun bound => other ?_⟩
    obtain rfl | later := List.mem_cons.mp bound
    · exact List.mem_cons_self
    · obtain ⟨b, part, rfl⟩ := List.mem_map.mp later
      obtain ⟨ca, pair, made⟩ := exists_of_mem_right (mapM_eq_ok.mp cut) part
      obtain ⟨a, _, made⟩ := bind_eq_ok.mp made
      obtain ⟨rows, _, made⟩ := bind_eq_ok.mp made
      cases made
      exact List.mem_cons_of_mem _ (List.mem_map_of_mem (List.of_mem_zip pair).1)
  | thread pat only body =>
    obtain ⟨_, ran, same⟩ := bind_eq_ok.mp h
    cases same
    obtain ⟨⟨before, t⟩, among, ran⟩ := exists_of_mem_right (mapM_eq_ok.mp ran) mem
    refine ⟨before, List.fst_mem_of_mem_zipIdx among, fun v other => ?_⟩
    rw [GroupKernel.runThread_eq] at ran
    obtain ⟨chosen, _, ran⟩ := bind_eq_ok.mp ran
    obtain ⟨values, _, ran⟩ := bind_eq_ok.mp ran
    exact Env.bindValues_frame ran other
  | reduce pat width op inputs =>
    obtain ⟨_, ran, same⟩ := bind_eq_ok.mp h
    cases same
    obtain ⟨reduced, _, ran⟩ := bind_eq_ok.mp ran
    obtain ⟨bound, made, ran⟩ := bind_eq_ok.mp ran
    cases ran
    obtain ⟨members, among, inside⟩ := List.mem_flatten.mp mem
    obtain ⟨mr, pair, made⟩ := exists_of_mem_right (mapM_eq_ok.mp made) among
    obtain ⟨before, member, made⟩ := exists_of_mem_right (mapM_eq_ok.mp made) inside
    refine ⟨before, GroupKernel.mem_blocks (List.of_mem_zip pair).1 member, fun v other => ?_⟩
    exact Env.bindValues_frame made other

theorem evalGroupStms_frame {stms : List GroupStm} {groupSize : Nat} {threads next : List Env}
    (h : evalGroupStms groupSize stms threads = .ok next) {after : Env} (mem : after ∈ next) :
    ∃ before ∈ threads, ∀ v, v ∉ stms.flatMap GroupStm.names → after.get? v = before.get? v := by
  induction stms generalizing threads with
  | nil =>
    cases h
    exact ⟨after, mem, fun _ _ => rfl⟩
  | cons stm stms ih =>
    rw [evalGroupStms_cons] at h
    obtain ⟨between, first, h⟩ := bind_eq_ok.mp h
    obtain ⟨middle, inside, rest⟩ := ih h
    obtain ⟨before, among, changed⟩ := GroupStm.eval_frame first inside
    refine ⟨before, among, fun v other => ?_⟩
    rw [List.flatMap_cons, List.mem_append, not_or] at other
    exact (rest v other.2).trans (changed v other.1)

/-- A thread of a group kernel, after some of the statements: it knows its number, and what the kernel does
not bind is as it was at the launch. -/
theorem GroupKernel.thread_known {k : GroupKernel} {env now : Env} {threads groupSize : Nat} {before after : List GroupStm}
    {next : List Env} (split : k.body.stms = before ++ after)
    (done : evalGroupStms groupSize before ((List.range threads).map (threadEnv k.space groupSize env)) = .ok next)
    (mem : now ∈ next) :
    (∀ v, v ∉ k.ownNames → now.get? v = env.get? v) ∧
      ((Kernel.group k).bound.Nodup → ∃ t < threads, now.get? k.space.thread = some (.count t)) := by
  obtain ⟨start, among, rest⟩ := evalGroupStms_frame done mem
  obtain ⟨t, below, rfl⟩ := List.mem_map.mp among
  have earlier (v : Name) (mem : v ∈ before.flatMap GroupStm.names) : v ∈ k.body.stms.flatMap GroupStm.names := by
    rw [split, List.flatMap_append]
    exact List.mem_append_left _ mem
  constructor
  · intro v other
    rw [ownNames, List.mem_append, not_or] at other
    rw [rest v fun bound => other.2 (earlier v bound)]
    exact Env.get?_bindAll_of_not_mem _ other.1
  · intro nodup
    refine ⟨t, List.mem_range.mp below, ?_⟩
    have distinct : (k.space.names ++ boundInGroupStms k.body.stms).Nodup := by
      obtain ⟨certs, size, space, returns, stms, result⟩ := k
      exact nodup
    obtain ⟨own, _, apart⟩ := List.nodup_append.mp distinct
    rw [rest k.space.thread fun bound => ?_]
    · rw [ThreadNames.names, List.nodup_cons] at own
      rw [threadEnv, Env.bindAll_cons, Env.get?_bindAll_of_not_mem _ own.1, Env.get?_bind, if_pos rfl]
    · refine apart k.space.thread List.mem_cons_self k.space.thread (List.count_pos_iff.mp ?_) rfl
      rw [count_boundInGroupStms]
      exact Nat.lt_of_lt_of_le (List.count_pos_iff.mpr (earlier _ bound)) (Nat.le_add_right _ _)

theorem GroupKernel.ThreadFeeds.mem {pat : Pattern} {only : Option Operand} {run : Env → Eval (List Value)} {groupSize : Nat}
    {threads : List Env} {thread : Env} (h : ThreadFeeds pat only run groupSize threads thread) : thread ∈ threads := by
  obtain ⟨t, reached, _⟩ := h
  exact List.fst_mem_of_mem_zipIdx reached.mem

theorem GroupKernel.ReduceFeeds.mem {width : Operand} {inputs : List (Operand × Name)}
    {op : Env → List Value → Eval (List Value)} {groupSize : Nat} {threads : List Env} {thread : Env} {args : List Value}
    (h : ReduceFeeds width inputs op groupSize threads thread args) : thread ∈ threads := by
  obtain ⟨first, rest, n, start, lane, accs, reached, _, _, come, _⟩ := h
  exact mem_blocks reached.mem (List.mem_of_mem_take (List.fst_mem_of_mem_zipIdx come.mem))

/-! Everything that is run -/

/-- What a body inside binds is bound in the expression. -/
theorem Enters.bound_subset {env thread : Env} {e : Exp} {inner : Body} (h : Enters env e inner thread) :
    ∀ v ∈ inner.bound, v ∈ e.bound := by
  intro v mem
  cases h with
  | onTrue chosen => exact List.mem_append_left _ mem
  | onFalse chosen => exact List.mem_append_right _ mem
  | round started counted below done => exact List.mem_append_right _ mem
  | @map k =>
    obtain ⟨certs, width, thread, space, inputs, returns, body⟩ := k
    exact List.mem_append_right _ mem
  | @scan k =>
    obtain ⟨certs, width, size, combine, ⟨params, body, ret⟩, neutral, arrays⟩ := k
    exact List.mem_append_right _ (List.mem_append_right _ mem)
  | @chunked k =>
    obtain ⟨certs, width, size, division, ⟨params, body, ret⟩, arrays⟩ := k
    exact List.mem_append_right _ mem
  | @scatter k =>
    obtain ⟨certs, width, ⟨params, body, ret⟩, arrays, dests⟩ := k
    exact List.mem_append_right _ mem
  | @groupThread k _ _ _ _ _ _ _ _ _ _ _ split =>
    refine k.mem_bound_of_innerBound (List.mem_flatMap.mpr ⟨_, split ▸ List.mem_append_right _ List.mem_cons_self, ?_⟩)
    exact mem
  | @groupReduce k _ _ _ _ _ _ op _ _ _ _ _ _ _ split =>
    refine k.mem_bound_of_innerBound (List.mem_flatMap.mpr ⟨_, split ▸ List.mem_append_right _ List.mem_cons_self, ?_⟩)
    obtain ⟨params, body, ret⟩ := op
    exact List.mem_append_right _ mem

theorem Enters.frame {env thread : Env} {e : Exp} {inner : Body} {v : Name} (h : Enters env e inner thread)
    (other : v ∉ e.bound) : thread.get? v = env.get? v := by
  cases h with
  | onTrue chosen => rfl
  | onFalse chosen => rfl
  | @round context values index bound body init now n i started counted below done =>
    rw [Exp.bound, List.mem_append, List.mem_append, not_or, not_or, List.mem_singleton] at other
    rw [Env.get?_bindAll_of_not_mem, Env.get?_bind, if_neg other.1.2]
    intro mem
    obtain ⟨b, inside, rfl⟩ := List.mem_map.mp mem
    exact other.1.1 (List.of_mem_zip inside).1
  | @map k _ fed =>
    obtain ⟨_, _, _, _, _, _, made⟩ := fed
    obtain ⟨certs, width, thread, space, inputs, returns, body⟩ := k
    exact MapKernel.threadEnv_frame made fun mem => other (List.mem_append_left _ mem)
  | @scan k _ _ _ bound =>
    obtain ⟨certs, width, size, combine, ⟨params, body, ret⟩, neutral, arrays⟩ := k
    exact Env.bindParams_frame bound fun mem => other (List.mem_append_right _ (List.mem_append_left _ mem))
  | @chunked k _ _ _ bound =>
    obtain ⟨certs, width, size, division, ⟨params, body, ret⟩, arrays⟩ := k
    exact Env.bindParams_frame bound fun mem => other (List.mem_append_left _ mem)
  | @scatter k _ _ _ bound =>
    obtain ⟨certs, width, ⟨params, body, ret⟩, arrays, dests⟩ := k
    exact Env.bindParams_frame bound fun mem => other (List.mem_append_left _ mem)
  | @groupThread k _ _ _ _ _ _ _ _ _ _ _ split done fed =>
    exact (GroupKernel.thread_known split done fed.mem).1 v fun own => other (k.mem_bound_of_ownNames own)
  | @groupReduce k _ _ _ _ _ _ op _ _ _ _ _ _ _ split done fed bound =>
    have known := (GroupKernel.thread_known split done fed.mem).1 v fun own => other (k.mem_bound_of_ownNames own)
    refine (Env.bindParams_frame bound fun mem => other ?_).trans known
    refine k.mem_bound_of_innerBound (List.mem_flatMap.mpr ⟨_, split ▸ List.mem_append_right _ List.mem_cons_self, ?_⟩)
    obtain ⟨params, body, ret⟩ := op
    exact List.mem_append_left _ mem

/-- Wherever the evaluation of a body is, the names that it does not bind are as they were. -/
theorem Executes.frame {env now : Env} {body : Body} {stm : Stm} (h : Executes env body now stm) :
    (∀ v ∈ stm.exp.bound, v ∈ body.bound) ∧ ∀ v, v ∉ body.bound → now.get? v = env.get? v := by
  induction h with
  | @here env now before after stm result done =>
    obtain ⟨pat, certs, exp⟩ := stm
    rw [Body.bound, boundInStms_append, boundInStms]
    constructor
    · intro v mem
      exact List.mem_append_right _ (List.mem_append_left _ (List.mem_append_right _ mem))
    · intro v other
      exact evalStms_frame done fun bound => other (List.mem_append_left _ bound)
  | inside executed entered rest ih ih' =>
    constructor
    · exact fun v mem => ih.1 v (entered.bound_subset v (ih'.1 v mem))
    · intro v other
      have apart : v ∉ Exp.bound _ := fun bound => other (ih.1 v bound)
      rw [ih'.2 v fun bound => apart (entered.bound_subset v bound), entered.frame apart, ih.2 v other]

end ArrayKernels
