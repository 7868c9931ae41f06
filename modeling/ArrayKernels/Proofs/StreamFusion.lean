import ArrayKernels.Proofs.InputFusion
import ArrayKernels.Proofs.StreamSoundness

/-! Streamed iotas that an operator computes. The element of an iota at a place is the place plus the start of the iota, and the chunk
of a thread is an iota again: its start is that of the thread's first row, and its stride the distance of the thread's rows. The operator
of a scan, a scatter or a chunked kernel that binds these values in front of its body does what it did with the streams it was given. -/
namespace ArrayKernels

variable {env : Env} {table : SymbolTable}

/-! Operators with fewer streams -/

theorem Lambda.eval_eq (op : Lambda) (env : Env) (args : List Value) :
    op.eval env args = (env.bindParams op.params args >>= fun e => op.body.eval e) := by
  cases op
  rw [eval]

section
variable {S : Scope} {op : Lambda} {lead : List Binder} {streams : List (Binder × Name)} {flags : List Bool} {before : List Stm}
  {xs ys vs : List Value}

/-- An operator that computes some of its streams has the values of one that is given all of them. -/
theorem Lambda.withStreams_eval (enclosed : Encloses S op.body.free op.body.bound) (distinct : (op.params.map Binder.name).Nodup)
    (given : op.params = lead ++ streams.map Prod.fst) (matched : flags.length = streams.length)
    (computes : ∀ ρ, env.Agree (· ∉ op.params.map Binder.name) ρ → (∀ p ∈ lead.zip xs, ρ.get? p.1.name = some p.2) →
      ∃ τ, evalStms ρ before = .ok τ ∧ (∀ p ∈ pick (flags.map (!·)) (streams.zip ys), τ.get? p.1.1.name = some p.2) ∧
        ρ.Agree (fun v => S v ∧ v ∉ (pick (flags.map (!·)) streams).map fun s => s.1.name) τ)
    (leads : lead.length = xs.length) (full : streams.length = ys.length) (evaluates : op.eval env (xs ++ ys) = .ok vs) :
    (op.withStreams lead (pick flags streams) before).eval env (xs ++ pick flags ys) = .ok vs := by
  rw [eval_eq] at evaluates ⊢
  obtain ⟨e, bound, evaluates⟩ := bind_eq_ok.mp evaluates
  have keptLength : (pick flags streams).length = (pick flags ys).length := by
    rw [length_pick matched, length_pick (matched.trans full)]
  obtain ⟨e', bound'⟩ : ∃ e', env.bindParams (lead ++ (pick flags streams).map Prod.fst) (xs ++ pick flags ys) = .ok e' :=
    ⟨_, if_pos (by simp only [List.length_append, List.length_map, leads, keptLength])⟩
  have kept : ((lead ++ (pick flags streams).map Prod.fst).map Binder.name).Sublist (op.params.map Binder.name) := by
    rw [given]
    exact (((pick_sublist _ _).map Prod.fst).append_left lead).map Binder.name
  have values := Env.bindParams_values distinct bound
  have values' := Env.bindParams_values (distinct.sublist kept) bound'
  rw [given, List.zip_append leads, List.forall_mem_append, List.zip_map_left, List.forall_mem_map] at values
  rw [List.zip_append leads, List.forall_mem_append, List.zip_map_left, pick_zip flags full, List.forall_mem_map] at values'
  have outside : env.Agree (· ∉ op.params.map Binder.name) e' :=
    fun v other => (Env.bindParams_frame bound' fun mem => other (kept.subset mem)).symm
  obtain ⟨τ, ran, computed, frame⟩ := computes e' outside values'.1
  rw [Lambda.withStreams, bound', ok_bind, Body.eval_append, ran, ok_bind, Body.eta, ← evaluates]
  symm
  apply Body.eval_agree op.body enclosed
  -- a name of the body has the same value, whether it is a leading parameter, a stream of either kind or from outside
  rw [given, List.map_append, List.nodup_append, List.map_map] at distinct
  have divided := ((pick_perm matched).map fun s => s.1.name).nodup_iff.mpr distinct.2.1
  rw [List.map_append, List.nodup_append] at divided
  have fused : ((pick (flags.map (!·)) streams).map fun s => s.1.name) ⊆ streams.map (Binder.name ∘ Prod.fst) :=
    ((pick_sublist _ _).map _).subset
  intro v used
  by_cases own : v ∈ op.params.map Binder.name
  · rw [given, List.map_append, List.mem_append, List.map_map] at own
    rcases own with first | stream
    · rw [← frame v ⟨used, fun mem => distinct.2.2 v first v (fused mem) rfl⟩]
      rw [← List.map_fst_zip (Nat.le_of_eq leads), List.map_map] at first
      obtain ⟨p, among, rfl⟩ := List.mem_map.mp first
      exact (values.1 p among).trans (values'.1 p among).symm
    · rw [← List.map_fst_zip (Nat.le_of_eq full), List.map_map] at stream
      obtain ⟨q, among, rfl⟩ := List.mem_map.mp stream
      have value : e.get? q.1.1.name = some q.2 := values.2 q among
      rcases mem_pick_or (by rw [List.length_zip, ← full, Nat.min_self, matched]) among with stays | goes
      · have there : e'.get? q.1.1.name = some q.2 := values'.2 q stays
        rw [← pick_zip flags full] at stays
        have other := divided.2.2 _ (List.mem_map_of_mem (List.of_mem_zip stays).1)
        exact (value.trans there.symm).trans (frame _ ⟨used, fun mem => other _ mem rfl⟩)
      · exact value.trans (computed q goes).symm
  · rw [Env.bindParams_frame bound own, outside v own, frame v ⟨used, fun mem => own ?_⟩]
    rw [given, List.map_append, List.map_map]
    exact List.mem_append_right _ (fused mem)

end

/-! Streams that count -/

theorem countsFrom_eq_some {v : Name} {start : Operand} (h : countsFrom table v = some start) :
    ∃ count stride, table.defn v = some (.iota count start stride) ∧ stride.asWord = some 1 := by
  unfold countsFrom at h
  split at h
  · split at h
    · cases h
      exact ⟨_, _, ‹_›, ‹_›⟩
    · cases h
  · cases h

/-- An array that counts holds the words from its start on. -/
theorem SymbolTable.Models.counts {own : List Name} (models : table.Models env own) {v : Name} {start : Operand} {a : ArrayValue}
    (counted : countsFrom table v = some start) (wide : env.Wide start) (read : env.array v = .ok a) :
    (∀ w ∈ start.free, w ∉ own) ∧ ∃ m first, env.scalar start = .ok (.i64 first) ∧ a = wordArray (iotaValues m first 1) := by
  obtain ⟨count, stride, defined, one⟩ := countsFrom_eq_some counted
  obtain ⟨x, value, there⟩ := models.value v _ defined
  cases (Env.array_eq_ok.mp read).symm.trans there
  rw [Exp.eval] at value
  obtain ⟨m, _, value⟩ := bind_eq_ok.mp value
  obtain ⟨first, begins, value⟩ := bind_eq_ok.mp value
  obtain ⟨step, steps, value⟩ := bind_eq_ok.mp value
  have unit : env.word stride = .ok 1 := by
    cases stride with
    | const c => exact Env.word_eq_ok.mpr ⟨c, rfl, one⟩
    | var w => cases one
  cases unit.symm.trans steps
  rw [Value.words_eq] at value
  cases value
  refine ⟨fun w free => models.apart v _ defined w ?_, m, first, wide.scalar begins, rfl⟩
  simp [Exp.free, free]

section
variable {S : Scope} {op : Lambda} {lead : List Binder} {streams : List (Binder × Name)} {before : List Stm} {xs ys vs : List Value}
  {arrays : List ArrayValue}

theorem iotaParams_names (table : SymbolTable) (streams : List (Binder × Name)) :
    ((iotaParams table streams).map fun f => f.1.name) = (pick ((keptFlags table streams).map (!·)) streams).map fun s => s.1.name := by
  induction streams with
  | nil => rfl
  | cons s streams ih =>
    rw [keptFlags, List.map_cons, List.map_cons, pick_cons, ← keptFlags, iotaParams, List.filterMap_cons, ← iotaParams]
    cases countsFrom table s.2 with
    | none => exact ih
    | some start => exact congrArg (s.1.name :: ·) ih

/-- An operator that computes its iotas has the values of one that is given them. -/
theorem Lambda.computed_eval {own : List Name} {part : Int64 → Value} (models : table.Models env own)
    (params : ∀ v ∈ op.params.map Binder.name, v ∈ own) (enclosed : Encloses S op.body.free op.body.bound)
    (distinct : (op.params.map Binder.name).Nodup) (given : op.params = lead ++ streams.map Prod.fst) (leads : lead.length = xs.length)
    (starts : ∀ v ∈ streams.map Prod.snd, ∀ start, countsFrom table v = some start → env.Wide start)
    (read : (streams.map Prod.snd).mapM env.array = .ok arrays)
    (parts : List.Forall₂ (fun a y => ∀ m first, a = wordArray (iotaValues m first 1) → y = part first) arrays ys)
    (computes : ∀ ρ, env.Agree (· ∉ op.params.map Binder.name) ρ → (∀ p ∈ lead.zip xs, ρ.get? p.1.name = some p.2) →
      (∀ f ∈ iotaParams table streams, (∀ w ∈ f.2.free, w ∉ own) ∧ ∃ first, ρ.scalar f.2 = .ok (.i64 first)) →
      ∃ τ, evalStms ρ before = .ok τ ∧
        (∀ f ∈ iotaParams table streams, ∀ first, ρ.scalar f.2 = .ok (.i64 first) → τ.get? f.1.name = some (part first)) ∧
        ρ.Agree (fun v => S v ∧ v ∉ (iotaParams table streams).map fun f => f.1.name) τ)
    (evaluates : op.eval env (xs ++ ys) = .ok vs) :
    (op.withStreams lead (otherStreams table streams) before).eval env (xs ++ pick (keptFlags table streams) ys) = .ok vs := by
  have each := List.forall₂_map_left_iff.mp (forall₂_comp (mapM_eq_ok.mp read) parts)
  -- each iota that is computed begins with a word
  have begins {s : Binder × Name} {start : Operand} (among : s ∈ streams) (counted : countsFrom table s.2 = some start) :=
    starts s.2 (List.mem_map_of_mem among) start counted
  rw [otherStreams_eq]
  apply Lambda.withStreams_eval enclosed distinct given (List.length_map _) _ leads each.length_eq evaluates
  intro ρ outside first
  have agree {x : Operand} (apart : ∀ w ∈ x.free, w ∉ own) : env.scalar x = ρ.scalar x :=
    outside.scalar fun w free mem => apart w free (params w mem)
  rw [iotaParams_names] at computes
  obtain ⟨τ, ran, values, frame⟩ := computes ρ outside first (by
    intro f mem
    obtain ⟨s, among, made⟩ := List.mem_filterMap.mp mem
    obtain ⟨start, counted, rfl⟩ := Option.map_eq_some_iff.mp made
    obtain ⟨a, array⟩ := exists_of_mapM read (List.mem_map_of_mem among)
    obtain ⟨apart, _, first, begin, _⟩ := models.counts counted (begins among counted) array
    exact ⟨apart, first, agree apart ▸ begin⟩)
  refine ⟨τ, ran, fun p mem => ?_, frame⟩
  obtain ⟨among, start, counted, param⟩ := exists_iotaParam each.length_eq mem
  obtain ⟨a, array, made⟩ := List.forall₂_zip each among
  obtain ⟨apart, m, begin, word, rfl⟩ := models.counts counted (begins (List.of_mem_zip among).1 counted) array
  rw [made m begin rfl]
  exact values _ param begin (agree apart ▸ word)

end

/-! Elements -/

theorem Exp.eval_sum {x y : Operand} {a b : Int64} (left : env.scalar x = .ok (.i64 a)) (right : env.scalar y = .ok (.i64 b)) :
    (Exp.binary .add x y).eval env = .ok [.word (a + b)] := by
  rw [Exp.eval, left, ok_bind, right, ok_bind]
  rfl

/-- The elements of iotas at a position, where no start mentions a name that they are bound to. -/
theorem iotaElements_evaluates {S : Scope} {position : Name} {i : Nat} {fused : List (Binder × Operand)} (visible : S position)
    (there : env.get? position = some (.count i)) (own : ∀ f ∈ fused, ¬S f.1.name) (distinct : (fused.map fun f => f.1.name).Nodup)
    (starts : ∀ f ∈ fused, InScope S f.2.free ∧ ∃ first, env.scalar f.2 = .ok (.i64 first)) :
    ∃ next, evalStms env (iotaElements position fused) = .ok next ∧
      (∀ f ∈ fused, ∀ first, env.scalar f.2 = .ok (.i64 first) → next.get? f.1.name = some (.word (.ofNat i + first))) ∧
      env.Agree (· ∉ fused.map fun f => f.1.name) next := by
  induction fused generalizing env with
  | nil => exact ⟨env, rfl, fun _ mem => absurd mem List.not_mem_nil, fun _ _ => rfl⟩
  | cons f fused ih =>
    obtain ⟨⟨inside, first, begins⟩, later⟩ := List.forall_mem_cons.mp starts
    obtain ⟨mine, others⟩ := List.forall_mem_cons.mp own
    rw [List.map_cons, List.nodup_cons] at distinct
    have agree : env.Agree S (env.bind f.1.name (.word (.ofNat i + first))) := .bind_other mine _
    obtain ⟨next, ran, values, frame⟩ := ih (agree position visible ▸ there) others distinct.2 fun g mem => by
      obtain ⟨inside, first, begins⟩ := later g mem
      exact ⟨inside, first, agree.scalar inside ▸ begins⟩
    refine ⟨next, ?_, List.forall_mem_cons.mpr ⟨fun first' begins' => ?_, fun g mem first begins => ?_⟩, fun v other => ?_⟩
    · rw [iotaElements, List.map_cons, Stm.ofWord, evalStms_single (Exp.eval_sum (Env.scalar_of_value there) begins)]
      exact ran
    · cases begins.symm.trans begins'
      rw [← frame _ distinct.1, Env.get?_bind_self]
    · exact values g mem first (agree.scalar (later g mem).1 ▸ begins)
    · rw [List.map_cons, List.mem_cons, not_or] at other
      rw [← frame v other.2, Env.get?_bind, if_neg other.1]

section
variable {op : Lambda} {lead : List Binder} {streams : List (Binder × Name)}

/-- The names of the streams that are computed are among those of all streams. -/
theorem iotaParams_sublist (table : SymbolTable) (streams : List (Binder × Name)) :
    ((iotaParams table streams).map fun f => f.1.name).Sublist (streams.map fun s => s.1.name) := by
  rw [iotaParams_names]
  exact (pick_sublist _ _).map _

/-- An operator on elements that computes those of its iotas. -/
theorem Lambda.iotaElements_eval {own : List Name} {index : Binder} {others : List Binder} {i : Nat} {accs elems vs : List Value}
    {arrays : List ArrayValue} (models : table.Models env own) (params : ∀ v ∈ op.params.map Binder.name, v ∈ own)
    (distinct : (op.params.map Binder.name).Nodup) (given : op.params = (index :: others) ++ streams.map Prod.fst)
    (leads : others.length = accs.length)
    (starts : ∀ v ∈ streams.map Prod.snd, ∀ start, countsFrom table v = some start → env.Wide start)
    (read : (streams.map Prod.snd).mapM env.array = .ok arrays) (taken : (arrays.mapM fun a => a.row i) = .ok elems)
    (evaluates : op.eval env (.count i :: accs ++ elems) = .ok vs) :
    (op.withStreams (index :: others) (otherStreams table streams) (iotaElements index.name (iotaParams table streams))).eval env
      (.count i :: accs ++ pick (keptFlags table streams) elems) = .ok vs := by
  have everywhere : Encloses (fun _ => True) op.body.free op.body.bound := ⟨fun _ _ => trivial, fun _ _ => trivial⟩
  have names : op.params.map Binder.name = index.name :: (others.map Binder.name ++ streams.map fun s => s.1.name) := by
    rw [given, List.map_append, List.map_map]
    rfl
  have once := distinct
  rw [names, List.nodup_cons, List.mem_append, not_or, List.nodup_append] at once
  apply @Lambda.computed_eval env table _ op _ _ _ (.count i :: accs) _ _ _ own (fun first => .word (.ofNat i + first)) models params
    everywhere distinct given (congrArg Nat.succ leads) starts read _ _ evaluates
  · apply (mapM_eq_ok.mp taken).imp
    intro a y row m first counts
    obtain ⟨w, found, shown⟩ := wordArray.eq_of_row (counts ▸ row)
    rw [shown, iotaValues_getElem? found, Int64.mul_one, Int64.add_comm]
  · intro ρ _ first begin
    have there : ρ.get? index.name = some (.count i) := first (index, .count i) List.mem_cons_self
    obtain ⟨τ, ran, values, frame⟩ := @iotaElements_evaluates ρ (· ∉ streams.map fun s => s.1.name) _ _ (iotaParams table streams) once.1.2 there
      (fun f mem => not_not.mpr ((iotaParams_sublist table streams).subset (List.mem_map_of_mem mem)))
      (once.2.2.1.sublist (iotaParams_sublist table streams)) fun f mem => by
        obtain ⟨apart, begins⟩ := begin f mem
        refine ⟨fun w free stream => apart w free (params w ?_), begins⟩
        rw [names]
        exact List.mem_cons_of_mem _ (List.mem_append_right _ stream)
    exact ⟨τ, ran, values, fun v other => frame v other.2⟩

end

/-! Scans and scatters -/

/-- The arrays that a kernel streams through its operator. -/
def Kernel.streams : Kernel → List Name
  | .scan k => k.arrays
  | .chunked k => k.arrays
  | .scatter k => k.arrays
  | _ => []

theorem ScanKernel.eval_eq_run (k : ScanKernel) (env : Env) : (Kernel.scan k).eval env = k.run (fun args => k.fold.eval env args) env := by
  cases k
  rfl

theorem ScatterKernel.eval_eq_run (k : ScatterKernel) (env : Env) : (Kernel.scatter k).eval env = k.run (fun args => k.op.eval env args) env := by
  cases k
  rfl

section
variable {stm : Stm} {names names' : NameSupply} {new : List Stm} {vs : List Value}

/-- The fold of a scan computes the elements of its iotas. -/
theorem inlineScanIotas_evaluates {k : ScanKernel} (applied : inlineScanIotas table stm names = some (new, names'))
    (launched : stm.exp = .launch (.scan k)) (distinct : (Kernel.scan k).bound.Nodup) (models : table.Models env (Kernel.scan k).bound)
    (starts : ∀ v ∈ k.arrays, ∀ start, countsFrom table v = some start → env.Wide start) (evaluates : (Kernel.scan k).eval env = .ok vs) :
    ∃ k', new = [stm.withKernel k'] ∧ k'.eval env = .ok vs := by
  obtain ⟨k', index, params, streams, same, given, matched, rfl, _, _, rfl⟩ := inlineScanIotas_eq_some applied
  cases launched.symm.trans same
  refine ⟨_, rfl, ?_⟩
  rw [Kernel.bound_scan, k.fold.bound_eq] at distinct models
  have short : (params.drop k.neutral.length).length = k.arrays.length := by
    rw [List.length_drop]
    omega
  have arraysOf : ((params.drop k.neutral.length).zip k.arrays).map Prod.snd = k.arrays := List.map_snd_zip (Nat.le_of_eq short.symm)
  have all : k.fold.params = (index :: params.take k.neutral.length) ++ ((params.drop k.neutral.length).zip k.arrays).map Prod.fst := by
    rw [List.map_fst_zip (Nat.le_of_eq short), List.cons_append, List.take_append_drop, given]
  rw [ScanKernel.eval_eq_run] at evaluates ⊢
  refine ScanKernel.run_fewer (fun arrays read => otherStreams_arrays (arraysOf.symm ▸ read)) ?_ evaluates
  intro arrays i accs elems next read taken long
  apply Lambda.iotaElements_eval models _ _ all _ (arraysOf.symm ▸ starts) (arraysOf.symm ▸ read) taken
  · exact fun v mem => List.mem_append_right _ (List.mem_append_left _ mem)
  · exact (List.nodup_append.mp (List.nodup_append.mp distinct).2.1).1
  · rw [List.length_take, long]
    omega

/-- The operator of a scatter computes the elements of its iotas. -/
theorem inlineScatterIotas_evaluates {k : ScatterKernel} (applied : inlineScatterIotas table stm names = some (new, names'))
    (launched : stm.exp = .launch (.scatter k)) (distinct : (Kernel.scatter k).bound.Nodup)
    (models : table.Models env (Kernel.scatter k).bound)
    (starts : ∀ v ∈ k.arrays, ∀ start, countsFrom table v = some start → env.Wide start)
    (evaluates : (Kernel.scatter k).eval env = .ok vs) : ∃ k', new = [stm.withKernel k'] ∧ k'.eval env = .ok vs := by
  obtain ⟨k', index, params, same, given, matched, _, _, rfl⟩ := inlineScatterIotas_eq_some applied
  cases launched.symm.trans same
  refine ⟨_, rfl, ?_⟩
  rw [Kernel.bound_scatter, k.op.bound_eq] at distinct models
  have arraysOf : (params.zip k.arrays).map Prod.snd = k.arrays := List.map_snd_zip (Nat.le_of_eq matched.symm)
  have all : k.op.params = [index] ++ (params.zip k.arrays).map Prod.fst := by
    rw [List.map_fst_zip (Nat.le_of_eq matched), given]
    rfl
  rw [ScatterKernel.eval_eq_run] at evaluates ⊢
  refine ScatterKernel.run_fewer (fun arrays read => otherStreams_arrays (arraysOf.symm ▸ read)) ?_ evaluates
  intro arrays i elems values read taken
  apply @Lambda.iotaElements_eval env table k.op _ _ index [] i [] elems values arrays models _ _ all rfl (arraysOf.symm ▸ starts)
    (arraysOf.symm ▸ read) taken
  · exact fun v mem => List.mem_append_left _ mem
  · exact (List.nodup_append.mp distinct).1

/-- Scans and scatters that compute the elements of streamed iotas keep their results: where recorded definitions hold and the iotas
start with words of 64 bits, every call of the operator finds the elements that it would have been given. -/
theorem inlineElementIotas_keep_kernel {k : Kernel}
    (applied : inlineScanIotas table stm names = some (new, names') ∨ inlineScatterIotas table stm names = some (new, names'))
    (launched : stm.exp = .launch k) (distinct : k.bound.Nodup) (models : table.Models env k.bound)
    (starts : ∀ v ∈ k.streams, ∀ start, countsFrom table v = some start → env.Wide start) (evaluates : k.eval env = .ok vs) :
    ∃ k', new = [stm.withKernel k'] ∧ k'.eval env = .ok vs := by
  rcases applied with scan | scatter
  · obtain ⟨_, _, _, _, same, _⟩ := inlineScanIotas_eq_some scan
    cases launched.symm.trans same
    exact inlineScanIotas_evaluates scan launched distinct models starts evaluates
  · obtain ⟨_, _, _, same, _⟩ := inlineScatterIotas_eq_some scatter
    cases launched.symm.trans same
    exact inlineScatterIotas_evaluates scatter launched distinct models starts evaluates

end

/-- Counts from ten. -/
def sampleCounter : SymbolTable :=
  .bindStms .empty [.single ⟨"is", 1⟩ (.array .i64 [.word 5] false) (.iota (.word 5) (.word 10) (.word 1))]

def sampleStreams : Env :=
  ((Env.empty.bind ⟨"xs", 0⟩ (.words [3, 1, 4, 1, 5])).bind ⟨"is", 1⟩ (.words [10, 11, 12, 13, 14])).bind ⟨"ys", 2⟩ (.words [0, 0, 0, 0, 0, 0])

theorem sampleCounter_defn {v : Name} {d : Exp} (defined : sampleCounter.defn v = some d) :
    v = ⟨"is", 1⟩ ∧ d = .iota (.word 5) (.word 10) (.word 1) := by
  obtain ⟨⟨b, only, rfl⟩, rfl⟩ | ⟨_, defined⟩ := SymbolTable.defn_bindStm defined
  · cases only
    exact ⟨rfl, rfl⟩
  · cases defined

theorem sampleCounter_models (own : List Name) : sampleCounter.Models sampleStreams own := by
  constructor
  · intro v d defined
    obtain ⟨rfl, rfl⟩ := sampleCounter_defn defined
    exact ⟨_, rfl, rfl⟩
  · intro v d defined w free
    obtain ⟨_, rfl⟩ := sampleCounter_defn defined
    exact absurd free (NameSet.not_mem_empty w)

theorem sampleCounter_wide {v : Name} {start : Operand} (counted : countsFrom sampleCounter v = some start) : sampleStreams.Wide start := by
  obtain ⟨count, stride, defined, _⟩ := countsFrom_eq_some counted
  obtain ⟨_, same⟩ := sampleCounter_defn defined
  cases same
  intro c read
  cases read
  rfl

/-- The sums of the numbers and the elements of `xs`. -/
def sampleSums : Kernel :=
  let word (name : String) (tag : Nat) : Binder := ⟨⟨name, tag⟩, .scalar .i64, none⟩
  let one : Operand := .word 1
  .scan ⟨[], .word 5, ⟨one, one, one, one, one, one⟩,
    ⟨[word "j" 3, word "l" 4, word "r" 5], ⟨[], [.var ⟨"l", 4⟩]⟩, [.scalar .i64]⟩,
    ⟨[word "i" 6, word "acc" 7, word "a" 8, word "x" 9],
      ⟨[.ofWord ⟨"b", 10⟩ (.binary .add (.var ⟨"a", 8⟩) (.var ⟨"x", 9⟩)),
        .ofWord ⟨"c", 11⟩ (.binary .add (.var ⟨"acc", 7⟩) (.var ⟨"b", 10⟩))], [.var ⟨"c", 11⟩]⟩, [.scalar .i64]⟩,
    [.word 0], [⟨"is", 1⟩, ⟨"xs", 0⟩]⟩

/-- Writes the numbers to the places that `xs` gives. -/
def sampleWrites : Kernel :=
  let word (name : String) (tag : Nat) : Binder := ⟨⟨name, tag⟩, .scalar .i64, none⟩
  .scatter ⟨[], .word 5, ⟨[word "i" 3, word "a" 4, word "x" 5], ⟨[], [.var ⟨"x", 5⟩, .var ⟨"a", 4⟩]⟩, [.scalar .i64, .scalar .i64]⟩,
    [⟨"is", 1⟩, ⟨"xs", 0⟩], [(.word 6, ⟨"ys", 2⟩)]⟩

theorem sampleStreams_keep_kernel :
    (∃ k, inlineScanIotas sampleCounter (.single ⟨"zs", 12⟩ (.array .i64 [.word 5] false) (.launch sampleSums)) ⟨13⟩ =
      some ([.single ⟨"zs", 12⟩ (.array .i64 [.word 5] false) (.launch k)], ⟨13⟩) ∧
      k.eval sampleStreams = .ok [.words [13, 25, 41, 55, 74]]) ∧
    ∃ k, inlineScatterIotas sampleCounter (.single ⟨"zs", 12⟩ (.array .i64 [.word 6] false) (.launch sampleWrites)) ⟨13⟩ =
      some ([.single ⟨"zs", 12⟩ (.array .i64 [.word 6] false) (.launch k)], ⟨13⟩) ∧
      k.eval sampleStreams = .ok [.words [0, 13, 0, 10, 12, 14]] := by
  constructor
  · obtain ⟨k, made, evaluates⟩ := @inlineElementIotas_keep_kernel sampleStreams sampleCounter
      (.single ⟨"zs", 12⟩ (.array .i64 [.word 5] false) (.launch sampleSums)) ⟨13⟩ ⟨13⟩ _ _ sampleSums (.inl rfl) rfl (by decide)
      (sampleCounter_models _) (fun _ _ _ => sampleCounter_wide) rfl
    exact ⟨k, congrArg (fun new => some (new, _)) made, evaluates⟩
  · obtain ⟨k, made, evaluates⟩ := @inlineElementIotas_keep_kernel sampleStreams sampleCounter
      (.single ⟨"zs", 12⟩ (.array .i64 [.word 6] false) (.launch sampleWrites)) ⟨13⟩ ⟨13⟩ _ _ sampleWrites (.inr rfl) rfl (by decide)
      (sampleCounter_models _) (fun _ _ _ => sampleCounter_wide) rfl
    exact ⟨k, congrArg (fun new => some (new, _)) made, evaluates⟩

/-! Chunks -/

theorem Exp.eval_product {x y : Operand} {a b : Int64} (left : env.scalar x = .ok (.i64 a)) (right : env.scalar y = .ok (.i64 b)) :
    (Exp.binary .mul x y).eval env = .ok [.word (a * b)] := by
  rw [Exp.eval, left, ok_bind, right, ok_bind]
  rfl

/-- An iota whose length and start are known. -/
theorem Exp.eval_iota {count start : Name} {step : Operand} {m : Nat} {begin stride : Int64} (small : m < 2 ^ 63)
    (counted : env.get? count = some (.count m)) (begins : env.get? start = some (.word begin)) (steps : env.word step = .ok stride) :
    (Exp.iota (.var count) (.var start) step).eval env = .ok [.words (iotaValues m begin stride)] := by
  have word : env.word (.var start) = .ok begin := Env.word_eq_ok.mpr ⟨_, Env.scalar_of_value begins, rfl⟩
  rw [Exp.eval, Env.size_of_count counted small, ok_bind, word, ok_bind, steps, ok_bind]

/-- The bindings of the chunk of one iota. -/
def iotaChunk (thread count start offset : Name) (size : LaunchSize) (division : Division) (param : Binder) (x : Operand) : List Stm :=
  match division with
  | .strided => [.ofWord start (.binary .add (.var thread) x), .single param.name param.ty (.iota (.var count) (.var start) size.threads)]
  | .contiguous => [.ofWord offset (.binary .mul (.var thread) size.chunk), .ofWord start (.binary .add (.var offset) x),
      .single param.name param.ty (.iota (.var count) (.var start) (.word 1))]

section
variable {S : Scope} {thread count : Name} {size : LaunchSize} {division : Division} {t threads perThread m : Nat}

section
variable {start offset : Name} {param : Binder} {x : Operand} {begin : Int64}

theorem iotaChunk_bound {v : Name} (mem : v ∈ boundInStms (iotaChunk thread count start offset size division param x)) :
    v = param.name ∨ v = start ∨ v = offset := by
  cases division with
  | strided =>
    have mem : v ∈ [start, param.name] := mem
    simp only [List.mem_cons, List.not_mem_nil, or_false] at mem
    exact mem.elim (.inr ∘ .inl) .inl
  | contiguous =>
    have mem : v ∈ [offset, start, param.name] := mem
    simp only [List.mem_cons, List.not_mem_nil, or_false] at mem
    exact mem.elim (.inr ∘ .inr) (Or.elim · (.inr ∘ .inl) .inl)

/-- The chunk of one iota holds the rows of the thread. -/
theorem iotaChunk_evaluates (fresh : ¬S start ∧ ¬S offset) (visible : S count ∧ InScope S size.threads.free ∧ InScope S x.free)
    (small : m < 2 ^ 63) (numbered : env.get? thread = some (.count t)) (counted : env.get? count = some (.count m))
    (sized : env.size size.threads = .ok threads) (chunked : env.scalar size.chunk = .ok (.i64 (.ofNat perThread)))
    (begins : env.scalar x = .ok (.i64 begin)) :
    ∃ next, evalStms env (iotaChunk thread count start offset size division param x) = .ok next ∧ next.get? param.name =
      some (.words (iotaValues m (.ofNat (division.first t perThread) + begin) (.ofNat (division.stride threads)))) := by
  have number : env.scalar (.var thread) = .ok (.i64 (.ofNat t)) := Env.scalar_of_value numbered
  cases division with
  | strided =>
    have agree : env.Agree S (env.bind start (.word (.ofNat t + begin))) := .bind_other fresh.1 _
    have rows := Exp.eval_iota small (agree _ visible.1 ▸ counted) (Env.get?_bind_self ..)
      (Env.word_of_size (agree.size visible.2.1 ▸ sized)).1
    refine ⟨(env.bind start (.word (.ofNat t + begin))).bind param.name _, ?_, Env.get?_bind_self ..⟩
    rw [iotaChunk, Stm.ofWord, evalStms_single (Exp.eval_sum number begins), evalStms_single rows]
    rfl
  | contiguous =>
    have product := Exp.eval_product number chunked
    rw [← Int64.ofNat_mul] at product
    have agree : env.Agree S (env.bind offset (.word (.ofNat (t * perThread)))) := .bind_other fresh.2 _
    have scaled := Env.scalar_of_value (Env.get?_bind_self env offset (.word (.ofNat (t * perThread))))
    have sum := Exp.eval_sum scaled (agree.scalar visible.2.2 ▸ begins)
    have agree' := agree.trans (.bind_other fresh.1 (.word (.ofNat (t * perThread) + begin)))
    have rows := @Exp.eval_iota _ count start (.word 1) _ _ 1 small (agree' _ visible.1 ▸ counted) (Env.get?_bind_self ..) rfl
    refine ⟨((env.bind offset (.word (.ofNat (t * perThread)))).bind start (.word (.ofNat (t * perThread) + begin))).bind param.name _, ?_,
      Env.get?_bind_self ..⟩
    rw [iotaChunk, Stm.ofWord, evalStms_single product, Stm.ofWord, evalStms_single sum, evalStms_single rows]
    rfl

end

variable {fused : List (Binder × Operand)} {names names' : NameSupply} {before : List Stm}

/-- The chunk of the first iota is bound in front of the others. -/
theorem iotaChunks_cons {param : Binder} {x : Operand}
    (made : iotaChunks thread count size division ((param, x) :: fused) names = (before, names')) :
    ∃ rest between, before = iotaChunk thread count ⟨"iota_start", names.next⟩ ⟨"iota_offset", names.next + 1⟩ size division param x ++ rest ∧
      iotaChunks thread count size division fused between = (rest, names') ∧ names.next < between.next := by
  rw [iotaChunks] at made
  dsimp only [NameSupply.fresh] at made
  cases division with
  | strided =>
    cases made
    exact ⟨_, _, rfl, rfl, Nat.lt_succ_self _⟩
  | contiguous =>
    cases made
    exact ⟨_, _, rfl, rfl, Nat.lt_succ_of_lt (Nat.lt_succ_self _)⟩

theorem iotaChunks_bound (made : iotaChunks thread count size division fused names = (before, names')) {v : Name}
    (mem : v ∈ boundInStms before) : v ∈ fused.map (fun f => f.1.name) ∨ names.next ≤ v.tag := by
  induction fused generalizing names before with
  | nil =>
    cases made
    cases mem
  | cons f fused ih =>
    obtain ⟨rest, between, rfl, made, drawn⟩ := iotaChunks_cons made
    rw [boundInStms_append, List.mem_append] at mem
    rcases mem with here | later
    · rcases iotaChunk_bound here with rfl | rfl | rfl
      · exact .inl List.mem_cons_self
      · exact .inr (Nat.le_refl _)
      · exact .inr (Nat.le_succ _)
    · rcases ih made later with own | other
      · exact .inl (List.mem_cons_of_mem _ own)
      · exact .inr (Nat.le_trans (Nat.le_of_lt drawn) other)

/-- The chunks of the iotas of a thread hold its rows. -/
theorem iotaChunks_evaluates (made : iotaChunks thread count size division fused names = (before, names'))
    (old : ∀ v, S v → v.tag < names.next) (own : ∀ f ∈ fused, ¬S f.1.name ∧ f.1.name.tag < names.next)
    (distinct : (fused.map fun f => f.1.name).Nodup)
    (visible : S thread ∧ S count ∧ InScope S size.threads.free ∧ InScope S size.chunk.free) (small : m < 2 ^ 63)
    (numbered : env.get? thread = some (.count t)) (counted : env.get? count = some (.count m))
    (sized : env.size size.threads = .ok threads) (chunked : env.scalar size.chunk = .ok (.i64 (.ofNat perThread)))
    (starts : ∀ f ∈ fused, InScope S f.2.free ∧ ∃ first, env.scalar f.2 = .ok (.i64 first)) :
    ∃ next, evalStms env before = .ok next ∧ ∀ f ∈ fused, ∀ begin, env.scalar f.2 = .ok (.i64 begin) → next.get? f.1.name =
      some (.words (iotaValues m (.ofNat (division.first t perThread) + begin) (.ofNat (division.stride threads)))) := by
  induction fused generalizing env names before with
  | nil =>
    cases made
    exact ⟨env, rfl, fun _ mem => absurd mem List.not_mem_nil⟩
  | cons f fused ih =>
    obtain ⟨param, x⟩ := f
    obtain ⟨rest, between, rfl, made, drawn⟩ := iotaChunks_cons made
    obtain ⟨⟨inside, begin, begins⟩, later⟩ := List.forall_mem_cons.mp starts
    obtain ⟨mine, others⟩ := List.forall_mem_cons.mp own
    rw [List.map_cons, List.nodup_cons] at distinct
    have start : ¬S ⟨"iota_start", names.next⟩ := fun seen => Nat.lt_irrefl _ (old _ seen)
    have offset : ¬S ⟨"iota_offset", names.next + 1⟩ := fun seen => Nat.lt_asymm (old _ seen) (Nat.lt_succ_self _)
    obtain ⟨mid, ran, value⟩ := @iotaChunk_evaluates env S thread count size division t threads perThread m _ _ param x begin
      ⟨start, offset⟩ ⟨visible.2.1, visible.2.2.1, inside⟩ small numbered counted sized chunked begins
    -- what the other chunks read is the same behind the first one
    have agree : env.Agree S mid := by
      intro v seen
      symm
      apply evalStms_frame ran
      intro mem
      rcases iotaChunk_bound mem with rfl | rfl | rfl
      · exact mine.1 seen
      · exact start seen
      · exact offset seen
    obtain ⟨next, ranRest, values⟩ := ih made (fun v seen => Nat.lt_trans (old v seen) drawn)
      (fun g mem => ⟨(others g mem).1, Nat.lt_trans (others g mem).2 drawn⟩) distinct.2 (agree _ visible.1 ▸ numbered)
      (agree _ visible.2.1 ▸ counted) (agree.size visible.2.2.1 ▸ sized) (agree.scalar visible.2.2.2 ▸ chunked) fun g mem => by
        obtain ⟨inside, first, begins⟩ := later g mem
        exact ⟨inside, first, agree.scalar inside ▸ begins⟩
    refine ⟨next, ?_, List.forall_mem_cons.mpr ⟨fun begin' begins' => ?_, fun g mem first begins => ?_⟩⟩
    · rw [evalStms_append, ran, ok_bind, ranRest]
    · cases begins.symm.trans begins'
      rw [evalStms_frame ranRest, value]
      intro again
      rcases iotaChunks_bound made again with twice | new
      · exact distinct.1 twice
      · exact Nat.lt_irrefl _ (Nat.lt_of_lt_of_le (Nat.lt_trans mine.2 drawn) new)
    · exact values g mem first (agree.scalar (later g mem).1 ▸ begins)

end

theorem Encloses.operator {S : Scope} {op : Lambda} (h : Encloses S op.free op.bound) : Encloses S op.body.free op.body.bound := by
  obtain ⟨params, body, ret⟩ := op
  obtain ⟨inner, _⟩ := InScope.union_iff.mp h.free
  apply h.body
  intro v mem
  apply inner v
  simp only [NameSet.mem_without, NameSet.mem_union] at mem ⊢
  exact ⟨.inl mem.1, mem.2⟩

/-- An operator on chunks that computes those of its iotas. -/
theorem Lambda.iotaChunks_eval {op : Lambda} {thread count : Binder} {streams : List (Binder × Name)} {size : LaunchSize} {division : Division}
    {names names' : NameSupply} {before : List Stm} {t threads perThread width : Nat} {arrays chunks : List ArrayValue} {vs : List Value}
    (models : table.Models env op.bound) (used : Encloses (fun v => v.tag < names.next) op.free op.bound) (distinct : op.bound.Nodup)
    (given : op.params = [thread, count] ++ streams.map Prod.fst)
    (starts : ∀ v ∈ streams.map Prod.snd, ∀ start, countsFrom table v = some start → env.Wide start)
    (recorded : ∀ f ∈ iotaParams table streams, ∀ v ∈ f.2.free, v.tag < names.next)
    (sizes : ∀ v ∈ size.free, v.tag < names.next ∧ v ∉ op.bound)
    (made : iotaChunks thread.name count.name size division (iotaParams table streams) names = (before, names')) (below : t < threads)
    (small : width < 2 ^ 63) (sized : env.size size.threads = .ok threads) (chunked : env.size size.chunk = .ok perThread)
    (wide : env.Wide size.chunk) (read : (streams.map Prod.snd).mapM env.array = .ok arrays)
    (taken : (arrays.mapM fun a => a.takeRows (division.rows t threads perThread width)) = .ok chunks)
    (evaluates : op.eval env (.count t :: .count (division.rows t threads perThread width).length :: chunks.map .array) = .ok vs) :
    (op.withStreams [thread, count] (otherStreams table streams) before).eval env
      (.count t :: .count (division.rows t threads perThread width).length :: (pick (keptFlags table streams) chunks).map .array) = .ok vs := by
  have shown : op.params.map Binder.name = thread.name :: count.name :: streams.map fun s => s.1.name := by
    rw [given, List.map_append, List.map_map]
    rfl
  have params (v : Name) (mem : v ∈ op.params.map Binder.name) : v ∈ op.bound := by
    rw [op.bound_eq]
    exact List.mem_append_left _ mem
  have once : (op.params.map Binder.name).Nodup := (List.nodup_append.mp (op.bound_eq ▸ distinct)).1
  have apart := once
  simp only [shown, List.nodup_cons, List.mem_cons, not_or] at apart
  have outer (v : Name) (other : v ∉ op.bound) : v ∉ streams.map fun s => s.1.name := by
    intro stream
    apply other (params v _)
    rw [shown]
    exact List.mem_cons_of_mem _ (List.mem_cons_of_mem _ stream)
  have operands := InScope.launched (S := fun v => v.tag < names.next ∧ v ∉ op.bound) sizes
  simp only [InScope.union_iff] at operands
  rw [map_pick]
  apply @Lambda.computed_eval env table (fun v => v.tag < names.next) op [thread, count] streams before [.count t, .count _] _ _ _ op.bound
    (fun first => .words (iotaValues (division.rows t threads perThread width).length (.ofNat (division.first t perThread) + first)
      (.ofNat (division.stride threads)))) models params used.operator once given rfl starts read _ _ evaluates
  · apply List.forall₂_map_right_iff.mpr
    apply (mapM_eq_ok.mp taken).imp
    rintro _ b rows m first rfl
    have even (j i : Nat) (found : (division.rows t threads perThread width)[j]? = some i) := Division.rows_getElem? below found
    rw [takeRows_iotaValues even rows]
    rfl
  · intro ρ outside first begin
    have same {x : Operand} (inside : InScope (fun v => v.tag < names.next ∧ v ∉ op.bound) x.free) :
        InScope (· ∉ op.params.map Binder.name) x.free := inside.mono fun v seen mem => seen.2 (params v mem)
    have inner {x : Operand} (inside : InScope (fun v => v.tag < names.next ∧ v ∉ op.bound) x.free) :
        InScope (fun v => v.tag < names.next ∧ v ∉ streams.map fun s => s.1.name) x.free := inside.mono fun v seen => ⟨seen.1, outer v seen.2⟩
    have old (v : Name) (mem : v ∈ op.params.map Binder.name) : v.tag < names.next := used.bound v (params v mem)
    rw [shown] at old
    simp only [List.forall_mem_cons] at old
    have chunk := wide.scalar (Env.word_of_size chunked).1
    obtain ⟨τ, ran, values⟩ := iotaChunks_evaluates made (fun v seen => seen.1)
      (fun f mem => by
        have stream := (iotaParams_sublist table streams).subset (List.mem_map_of_mem mem)
        exact ⟨fun seen => seen.2 stream, old.2.2 _ stream⟩)
      (apart.2.2.sublist (iotaParams_sublist table streams))
      ⟨⟨old.1, apart.1.2⟩, ⟨old.2.1, apart.2.1⟩, inner operands.1.1, inner operands.2⟩
      (Nat.lt_of_le_of_lt (Division.length_rows_le ..) small) (first (thread, _) List.mem_cons_self)
      (first (count, _) (List.mem_cons_of_mem _ List.mem_cons_self)) (outside.size (same operands.1.1) ▸ sized)
      (outside.scalar (same operands.2) ▸ chunk)
      fun f mem => ⟨inner fun v free => ⟨recorded f mem v free, (begin f mem).1 v free⟩, (begin f mem).2⟩
    refine ⟨τ, ran, values, fun v seen => (evalStms_frame ran ?_).symm⟩
    intro mem
    rcases iotaChunks_bound made mem with own | new
    · exact seen.2 own
    · exact Nat.not_lt.mpr new seen.1

theorem ChunkedKernel.eval_eq_run (k : ChunkedKernel) (env : Env) : (Kernel.chunked k).eval env = k.run (fun args => k.op.eval env args) env := by
  cases k
  rfl

/-- A chunked kernel that computes the chunks of streamed iotas keeps its results: where recorded definitions hold, the rows of a
thread are counted by a word of 64 bits and the iotas start with one, every thread finds the rows that it would have been given. -/
theorem inlineChunkIotas_keep_kernel {stm : Stm} {k : ChunkedKernel} {names names' : NameSupply} {new : List Stm} {vs : List Value}
    (applied : inlineChunkIotas table stm names = some (new, names')) (launched : stm.exp = .launch (.chunked k))
    (distinct : k.op.bound.Nodup) (models : table.Models env k.op.bound) (sizes : ∀ v ∈ k.size.free, v ∉ k.op.bound)
    (chunk : env.Wide k.size.chunk) (starts : ∀ v ∈ k.arrays, ∀ start, countsFrom table v = some start → env.Wide start)
    (fresh : ∀ v, v ∈ stm.free ∨ v ∈ stm.bound ∨ (∃ w d, table.defn w = some d ∧ v ∈ d.free) → v.tag < names.next)
    (evaluates : stm.exp.eval env = .ok vs) :
    ∃ k', new = [stm.withKernel (.chunked k')] ∧ (Exp.launch (.chunked k')).eval env = .ok vs := by
  obtain ⟨k', thread, count, params, before, same, given, matched, _, made, rfl⟩ := inlineChunkIotas_eq_some applied
  cases launched.symm.trans same
  refine ⟨_, rfl, ?_⟩
  have used : Encloses (fun v => v.tag < names.next) (Kernel.chunked k).free (Kernel.chunked k).bound := by
    obtain ⟨pat, certs, exp⟩ := stm
    cases launched
    exact ⟨fun v mem => fresh v (.inl (NameSet.mem_union.mpr (.inr mem))), fun v mem => fresh v (.inr (.inl (List.mem_append_right _ mem)))⟩
  have parts : Encloses (fun v => v.tag < names.next) k.op.free k.op.bound ∧ InScope (fun v => v.tag < names.next) k.size.free := by
    obtain ⟨certs, width, size, division, op, arrays⟩ := k
    have free := used.free
    simp only [Kernel.free, InScope.union_iff] at free
    exact ⟨⟨free.1.2, used.bound⟩, free.1.1.2⟩
  have recorded (f) (mem : f ∈ iotaParams table (params.zip k.arrays)) (v) (free : v ∈ f.2.free) : v.tag < names.next := by
    obtain ⟨s, _, chosen⟩ := List.mem_filterMap.mp mem
    obtain ⟨start, counted, rfl⟩ := Option.map_eq_some_iff.mp chosen
    obtain ⟨count, stride, defined, _⟩ := countsFrom_eq_some counted
    exact fresh v (.inr (.inr ⟨s.2, _, defined, by simp [Exp.free, free]⟩))
  have arraysOf : (params.zip k.arrays).map Prod.snd = k.arrays := List.map_snd_zip (Nat.le_of_eq matched.symm)
  have all : k.op.params = [thread, count] ++ (params.zip k.arrays).map Prod.fst := by
    rw [List.map_fst_zip (Nat.le_of_eq matched), given]
    rfl
  rw [launched, Exp.eval, ChunkedKernel.eval_eq_run] at evaluates
  rw [Exp.eval, ChunkedKernel.eval_eq_run]
  refine ChunkedKernel.run_fewer rfl (fun arrays read => otherStreams_arrays (arraysOf.symm ▸ read)) ?_ evaluates
  intro arrays width threads perThread t chunks values extent sized chunked read below taken
  exact Lambda.iotaChunks_eval models parts.1 distinct all (arraysOf.symm ▸ starts) recorded (fun v mem => ⟨parts.2 v mem, sizes v mem⟩) made
    below (Env.word_of_size extent).2 sized chunked chunk (arraysOf.symm ▸ read) taken

/-- Each thread copies its rows of the numbers and of `xs`, two at most. -/
def sampleChunks : ChunkedKernel :=
  let word (name : String) (tag : Nat) : Binder := ⟨⟨name, tag⟩, .scalar .i64, none⟩
  let rows : Ty := .array .i64 [.var ⟨"n", 4⟩] false
  let one : Operand := .word 1
  ⟨[], .word 5, ⟨one, one, .word 2, one, one, .word 4⟩, .contiguous,
    ⟨[word "t" 3, word "n" 4, ⟨⟨"a", 5⟩, rows, none⟩, ⟨⟨"x", 6⟩, rows, none⟩], ⟨[], [.var ⟨"a", 5⟩, .var ⟨"x", 6⟩]⟩, [rows, rows]⟩,
    [⟨"is", 1⟩, ⟨"xs", 0⟩]⟩

def sampleChunksStm : Stm :=
  let all : Ty := .array .i64 [.word 5] false
  ⟨⟨[], [⟨⟨"us", 7⟩, all, none⟩, ⟨⟨"vs", 8⟩, all, none⟩]⟩, [], .launch (.chunked sampleChunks)⟩

theorem sampleChunks_keep_kernel :
    ∃ new, inlineChunkIotas sampleCounter sampleChunksStm ⟨9⟩ = some ([new], ⟨11⟩) ∧
      new.exp.eval sampleStreams = .ok [.words [10, 11, 12, 13, 14], .words [3, 1, 4, 1, 5]] := by
  have chunk : sampleStreams.Wide sampleChunks.size.chunk := by
    intro c read
    cases read
    rfl
  have fresh (v : Name) (used : v ∈ sampleChunksStm.free ∨ v ∈ sampleChunksStm.bound ∨
      ∃ w d, sampleCounter.defn w = some d ∧ v ∈ d.free) : v.tag < 9 := by
    obtain free | bound | ⟨w, d, defined, free⟩ := used
    · revert v
      decide
    · revert v
      decide
    · obtain ⟨_, rfl⟩ := sampleCounter_defn defined
      exact absurd free (NameSet.not_mem_empty v)
  obtain ⟨k, made, evaluates⟩ := @inlineChunkIotas_keep_kernel sampleStreams sampleCounter sampleChunksStm sampleChunks ⟨9⟩ ⟨11⟩ _ _ rfl rfl
    (by decide) (sampleCounter_models _) (by decide) chunk (fun _ _ _ => sampleCounter_wide) fresh rfl
  refine ⟨_, rfl, ?_⟩
  rw [List.singleton_inj.mp made]
  exact evaluates

end ArrayKernels
