import ArrayKernels.Proofs.InputSoundness

/-! Dropping the inputs that the body of a map kernel does not mention. Inputs are bound in order, each in the scope of the ones
before it, so that an input which the body does not mention may still be what a later one is read through. The rule looks at the
body alone: a kernel keeps its results if no input is read through a dropped one, and has none otherwise. -/
namespace ArrayKernels

variable {env : Env}

/-! Threads before they read their inputs -/

theorem Env.get?_bindAll_counts {bs : List (Name × Value)} {v : Name} (counts : ∀ b ∈ bs, ∃ n, b.2 = .count n)
    (known : v ∈ bs.map Prod.fst ∨ ∃ n, env.get? v = some (.count n)) : ∃ n, (env.bindAll bs).get? v = some (.count n) := by
  induction bs generalizing env with
  | nil => exact known.resolve_left List.not_mem_nil
  | cons b bs ih =>
    obtain ⟨m, count⟩ := counts b List.mem_cons_self
    rw [bindAll_cons, count]
    apply ih fun b mem => counts b (List.mem_cons_of_mem _ mem)
    rw [get?_bind]
    by_cases here : v = b.1
    · exact .inr ⟨m, if_pos here⟩
    · rw [if_neg here]
      exact known.imp_left fun mem => (List.mem_cons.mp mem).resolve_left here

/-- An input has a value only if what it is read through has one. -/
theorem MapInput.exists_of_value {i : MapInput} {x : Value} {v : Name} (h : i.value env = .ok x) (read : v ∈ i.reads) :
    ∃ y, env.get? v = some y := by
  obtain ⟨a, array, h⟩ := bind_eq_ok.mp h
  obtain ⟨is, indices, _⟩ := bind_eq_ok.mp h
  rcases NameSet.mem_union.mp read with own | mem
  · cases NameSet.mem_singleton.mp own
    exact ⟨_, Env.array_eq_ok.mp array⟩
  · obtain ⟨operand, among, free⟩ := NameSet.mem_gather.mp mem
    cases operand with
    | const c => exact absurd free (NameSet.not_mem_empty v)
    | var w =>
      cases NameSet.mem_singleton.mp free
      obtain ⟨n, _, word⟩ := exists_of_mem_right (mapM_eq_ok.mp indices).flip among
      obtain ⟨c, scalar, _⟩ := Env.word_eq_ok.mp word
      obtain ⟨y, found, _⟩ := bind_eq_ok.mp scalar
      exact ⟨y, Env.lookup_eq_ok.mp found⟩

namespace MapKernel

variable {k : MapKernel} {inputs kept : List MapInput} {vs : List Value}

/-- What a thread knows before it reads its inputs: where it stands in the space, and what is known outside. -/
structure Place (k : MapKernel) (env place : Env) : Prop where
  count : ∀ v ∈ k.placeNames, ∃ n, place.get? v = some (.count n)
  frame : ∀ v, v ∉ k.placeNames → place.get? v = env.get? v

theorem place_of_sizes {dims : List Nat} (measured : env.sizes k.extents = .ok dims) (t : Nat) :
    k.Place env ((env.bind k.thread (.count t)).bindAll ((k.space.map Prod.fst).zip ((coordinates t dims).2.map Value.count)).reverse) where
  count v mem := by
    have length : (k.space.map Prod.fst).length = ((coordinates t dims).2.map Value.count).length := by
      rw [List.length_map, List.length_map, length_coordinates, ← (mapM_eq_ok.mp measured).length_eq, extents, List.length_map]
    apply Env.get?_bindAll_counts
    · intro b mem
      obtain ⟨n, _, same⟩ := List.mem_map.mp (List.of_mem_zip (List.mem_reverse.mp mem)).2
      exact ⟨n, same.symm⟩
    · rw [List.map_reverse, List.mem_reverse, List.map_fst_zip (Nat.le_of_eq length)]
      rcases List.mem_cons.mp mem with rfl | point
      · exact .inr ⟨t, by rw [Env.get?_bind, if_pos rfl]⟩
      · exact .inl point
  frame v other := place_frame dims env t other

theorem eval_eq_run (k : MapKernel) (env : Env) : (Kernel.map k).eval env = k.run (fun e => k.body.eval e) env := by
  cases k
  rfl

/-- A kernel whose threads read other inputs and run another body to the same end. -/
theorem eval_of_threads {body : Body}
    (threads : ∀ place e, k.Place env place → bindInputs place k.inputs = .ok e →
      ∃ e', bindInputs place kept = .ok e' ∧ ∀ vs, k.body.eval e = .ok vs → body.eval e' = .ok vs)
    (evaluates : (Kernel.map k).eval env = .ok vs) : (Kernel.map { k with inputs := kept, body := body }).eval env = .ok vs := by
  rw [eval_eq_run] at evaluates ⊢
  refine Follows.keeps ?_ evaluates
  apply run_follows (T := fun e e' => ∀ vs, k.body.eval e = .ok vs → body.eval e' = .ok vs)
  · exact .refl fun _ _ => rfl
  · exact .refl fun _ _ => rfl
  · intro dims t measured
    exact ⟨fun e made => threads _ e (place_of_sizes measured t) made, False.elim⟩
  · intro e e' _ _ keeps
    exact ⟨fun vs ran => ⟨vs, keeps vs ran, ValuesAlike.rfl_exact vs⟩, False.elim⟩
  · exact List.forall₂_same.mpr fun r _ => ⟨rfl, rfl, .refl fun _ _ => rfl⟩

/-! Inputs that stay -/

/-- If no input that stays is read through an earlier one that goes, those that stay have their values. -/
theorem bindInputs_filter {S : Scope} {env' next : Env} {stays : MapInput → Bool} (agree : env.Agree S env')
    (reads : ∀ i ∈ inputs, stays i = true → InScope S i.reads)
    (apart : inputs.Pairwise fun d i => stays d = false → stays i = true → d.param.name ∉ i.reads)
    (h : bindInputs env inputs = .ok next) :
    ∃ next', bindInputs env' (inputs.filter stays) = .ok next' ∧
      next.Agree (fun v => S v ∧ ∀ d ∈ inputs, stays d = false → v ≠ d.param.name) next' := by
  induction inputs generalizing env env' S with
  | nil =>
    cases h
    exact ⟨env', rfl, fun v visible => agree v visible.1⟩
  | cons i inputs ih =>
    rw [bindInputs_cons] at h
    obtain ⟨x, read, h⟩ := bind_eq_ok.mp h
    obtain ⟨first, apart⟩ := List.pairwise_cons.mp apart
    cases here : stays i with
    | true =>
      have same : i.value env = i.value env' :=
        MapInput.value_congr fun v mem => agree v (reads i List.mem_cons_self here v mem)
      obtain ⟨next', made, agree⟩ := ih (agree.bind i.param.name x) (fun j mem => reads j (List.mem_cons_of_mem _ mem)) apart h
      refine ⟨next', ?_, fun v visible => agree v ⟨visible.1, fun d mem => visible.2 d (List.mem_cons_of_mem _ mem)⟩⟩
      rw [List.filter_cons_of_pos here, bindInputs_cons, ← same, read, ok_bind, made]
    | false =>
      -- the name of the dropped input is no longer known to be the same
      have agree : (env.bind i.param.name x).Agree (fun v => S v ∧ v ≠ i.param.name) env' := by
        intro v visible
        rw [Env.get?_bind, if_neg visible.2, agree v visible.1]
      obtain ⟨next', made, agree⟩ := ih agree (fun j mem stays v read =>
        ⟨reads j (List.mem_cons_of_mem _ mem) stays v read, fun same => first j mem here stays (same ▸ read)⟩) apart h
      refine ⟨next', ?_, fun v visible => agree v ⟨⟨visible.1, visible.2 i List.mem_cons_self here⟩, fun d mem =>
        visible.2 d (List.mem_cons_of_mem _ mem)⟩⟩
      rw [List.filter_cons_of_neg (by rw [here]; decide), made]

theorem exists_of_bindInputs {next : Env} {i : MapInput} {v : Name} (h : bindInputs env inputs = .ok next) (mem : i ∈ inputs)
    (read : v ∈ i.reads) (other : v ∉ inputs.map fun i => i.param.name) : ∃ y, env.get? v = some y := by
  induction inputs generalizing env with
  | nil => cases mem
  | cons j inputs ih =>
    rw [bindInputs_cons] at h
    obtain ⟨x, found, h⟩ := bind_eq_ok.mp h
    rw [List.map_cons, List.mem_cons, not_or] at other
    rcases List.mem_cons.mp mem with rfl | later
    · exact MapInput.exists_of_value found read
    · obtain ⟨y, there⟩ := ih h later other.2
      rw [Env.get?_bind, if_neg other.1] at there
      exact ⟨y, there⟩

/-- The first thread of a kernel that has one. -/
theorem exists_thread {n : Nat} (evaluates : (Kernel.map k).eval env = .ok vs) (width : env.size k.width = .ok (n + 1)) :
    ∃ place e, k.Place env place ∧ bindInputs place k.inputs = .ok e := by
  rw [eval_eq_run, run, width, ok_bind] at evaluates
  obtain ⟨dims, measured, evaluates⟩ := bind_eq_ok.mp evaluates
  obtain ⟨results, collected, _⟩ := bind_eq_ok.mp evaluates
  rw [collect_eq_mapM, List.range_succ_eq_map, mapM_eq_ok] at collected
  obtain ⟨first, _, ran, _, _⟩ := List.forall₂_cons_left_iff.mp collected
  obtain ⟨e, made, _⟩ := bind_eq_ok.mp ran
  exact ⟨_, e, place_of_sizes measured 0, made⟩

/-! The rule -/

/-- The body does not mention the input `d`, and a later input that it does mention is read through `d`. -/
structure Strands (k : MapKernel) (d i : MapInput) : Prop where
  order : [d, i].Sublist k.inputs
  unused : d.param.name ∉ k.body.free
  used : i.param.name ∈ k.body.free
  through : d.param.name ∈ i.reads

theorem Strands.mem {k : MapKernel} {d i : MapInput} (h : k.Strands d i) : d ∈ k.inputs ∧ i ∈ k.inputs :=
  ⟨h.order.subset List.mem_cons_self, h.order.subset (List.mem_cons_of_mem _ List.mem_cons_self)⟩

section
variable (distinct : (k.threadNames ++ k.body.bound).Nodup)
include distinct

/-- Without inputs that are read through dropped ones, the threads run the body to the same end. -/
theorem eval_filter (unstranded : ∀ d i, ¬k.Strands d i) (evaluates : (Kernel.map k).eval env = .ok vs) :
    (Kernel.map { k with inputs := k.inputs.filter fun i => i.param.name ∈ k.body.free }).eval env = .ok vs := by
  refine eval_of_threads (fun place e _ made => ?_) evaluates
  have apart : k.inputs.Pairwise fun d i => decide (d.param.name ∈ k.body.free) = false →
      decide (i.param.name ∈ k.body.free) = true → d.param.name ∉ i.reads := by
    refine List.pairwise_iff_forall_sublist.mpr fun {d i} order unused used through => ?_
    exact unstranded d i ⟨order, of_decide_eq_false unused, of_decide_eq_true used, through⟩
  have everywhere : place.Agree (fun _ => True) place := fun _ _ => rfl
  obtain ⟨e', made', agree⟩ := bindInputs_filter everywhere (fun _ _ _ _ _ => trivial) apart made
  refine ⟨e', made', fun vs ran => ?_⟩
  rw [← ran]
  symm
  apply Body.eval_agree k.body (S := fun v => v ∈ k.body.free ∨ v ∈ k.body.bound) ⟨fun _ => .inl, fun _ => .inr⟩
  intro v mem
  refine agree v ⟨trivial, fun d among unused => ?_⟩
  rintro rfl
  rcases mem with free | bound
  · exact of_decide_eq_false unused free
  · refine (List.nodup_append.mp distinct).2.2 _ ?_ _ bound rfl
    rw [threadNames_eq]
    exact List.mem_append_right _ (List.mem_map_of_mem among)

/-- The first thread does not find what a stranded input is read through. -/
theorem eval_filter_fails {d i : MapInput} {n : Nat} (stranded : k.Strands d i) (unbound : env.get? d.param.name = none)
    (width : env.size k.width = .ok (n + 1)) :
    ∃ err, (Kernel.map { k with inputs := k.inputs.filter fun i => i.param.name ∈ k.body.free }).eval env = .error err := by
  cases evaluates : (Kernel.map { k with inputs := k.inputs.filter fun i => i.param.name ∈ k.body.free }).eval env with
  | error err => exact ⟨err, rfl⟩
  | ok vs =>
    obtain ⟨place, e, here, made⟩ := exists_thread evaluates width
    obtain ⟨earlier, later⟩ := stranded.mem
    have mine : d.param.name ∉ k.placeNames := by
      intro mem
      rw [threadNames_eq] at distinct
      exact (List.nodup_append.mp (List.nodup_append.mp distinct).1).2.2 _ mem _ (List.mem_map_of_mem earlier) rfl
    have gone : d.param.name ∉ (k.inputs.filter fun i => i.param.name ∈ k.body.free).map fun i => i.param.name := by
      intro mem
      obtain ⟨j, among, same⟩ := List.mem_map.mp mem
      exact stranded.unused (same ▸ of_decide_eq_true (List.mem_filter.mp among).2)
    obtain ⟨y, there⟩ := exists_of_bindInputs made (List.mem_filter.mpr ⟨later, decide_eq_true stranded.used⟩) stranded.through gone
    rw [here.frame _ mine, unbound] at there
    cases there

end

end MapKernel

/-- Dropping the inputs that the body does not mention keeps the results of a kernel as long as no other input is read through a
dropped one. A kernel with an input that is has no results, wherever the dropped name means nothing else and there is a thread. -/
theorem dropUnusedInputs_keeps_unstranded {table : SymbolTable} {stm : Stm} {names names' : NameSupply} {new : List Stm}
    (applied : dropUnusedInputs table stm names = some (new, names')) (distinct : stm.bound.Nodup) :
    ∃ k k', stm.exp = .launch (.map k) ∧ new = [stm.withKernel (.map k')] ∧
      ((∀ d i, ¬k.Strands d i) → ∀ env vs, stm.exp.eval env = .ok vs → (Exp.launch (.map k')).eval env = .ok vs) ∧
      ∀ d i, k.Strands d i → ∀ env n, env.get? d.param.name = none → env.size k.width = .ok (n + 1) →
        ∃ err, (Exp.launch (.map k')).eval env = .error err := by
  obtain ⟨k, launched, _, rfl, _⟩ := dropUnusedInputs_eq_some applied
  have distinct : (k.threadNames ++ k.body.bound).Nodup := by
    rw [Stm.bound, launched, Exp.bound, Kernel.bound_map] at distinct
    exact (List.nodup_append.mp distinct).2.1
  refine ⟨k, _, launched, rfl, fun unstranded env vs evaluates => ?_, fun d i stranded env n unbound width => ?_⟩
  · rw [launched] at evaluates
    exact MapKernel.eval_filter distinct unstranded evaluates
  · exact MapKernel.eval_filter_fails distinct stranded unbound width

/-- Gathers elements of `ys` with an index that is the place of a thread or what the thread reads from `xs`. -/
def sampleGather (index : Name) : Stm :=
  let word : Ty := .scalar .i64
  let i : Name := ⟨"i", 4⟩
  let q : Name := ⟨"q", 6⟩
  .single ⟨"zs", 2⟩ (.array .i64 [.word 2] false) (.launch (.map ⟨[], .word 2, ⟨"t", 3⟩, [(i, .word 2)],
    [⟨⟨⟨"p", 5⟩, word, none⟩, ⟨"xs", 0⟩, [.var i]⟩, ⟨⟨q, word, none⟩, ⟨"ys", 1⟩, [.var index]⟩], [(word, [0])], ⟨[], [.var q]⟩⟩))

def sampleArrays : Env := (Env.empty.bind ⟨"xs", 0⟩ (.words [1, 0])).bind ⟨"ys", 1⟩ (.words [7, 8, 9])

theorem sampleGather_keeps_unstranded :
    ∃ new, dropUnusedInputs .empty (sampleGather ⟨"i", 4⟩) ⟨7⟩ = some ([new], ⟨7⟩) ∧
      new.exp.eval sampleArrays = .ok [.words [7, 8]] := by
  obtain ⟨k, k', launched, made, keeps, _⟩ :=
    @dropUnusedInputs_keeps_unstranded .empty (sampleGather ⟨"i", 4⟩) ⟨7⟩ ⟨7⟩ _ rfl (by decide)
  refine ⟨_, rfl, ?_⟩
  rw [List.singleton_inj.mp made]
  apply keeps _ sampleArrays _ rfl
  intro d i stranded
  have apart : ∀ d ∈ k.inputs, ∀ i ∈ k.inputs, d.param.name ∉ i.reads := by
    cases launched
    decide
  exact apart d stranded.mem.1 i stranded.mem.2 stranded.through

theorem sampleGather_drop_fails :
    (sampleGather ⟨"p", 5⟩).bound.Nodup ∧ (sampleGather ⟨"p", 5⟩).exp.eval sampleArrays = .ok [.words [8, 7]] ∧
    ∃ new, dropUnusedInputs .empty (sampleGather ⟨"p", 5⟩) ⟨7⟩ = some ([new], ⟨7⟩) ∧ ¬∃ vs, new.exp.eval sampleArrays = .ok vs := by
  refine ⟨by decide, rfl, _, rfl, ?_⟩
  rintro ⟨vs, evaluates⟩
  cases evaluates

end ArrayKernels
