import ArrayKernels.Proofs.OutputSoundness
import Mathlib.Algebra.Group.Nat.Defs

/-! The rules on streamed iotas keep values. The elements of an iota that an operator is given for a stream are those that it computes
from the number of its thread. -/
namespace ArrayKernels

variable {how : Leniency} {S : Scope} {n n' : Nat} {σ τ : Store} {table : SymbolTable}

/-! Operators with fewer streams -/

section
variable {op : Lambda} {lead : List Binder} {streams : List (Binder × Name)} {flags : List Bool} {before : List Stm} {xs ys vs : List Value}

/-- The values of parameters with different names. -/
theorem Env.bindParams_values {env next : Env} {params : List Binder} {args : List Value} (distinct : (params.map Binder.name).Nodup)
    (h : env.bindParams params args = .ok next) : ∀ p ∈ params.zip args, next.get? p.1.name = some p.2 := by
  rw [bindParams] at h
  split at h
  · rename_i full
    cases h
    intro p mem
    apply get?_bindAll_of_nodup
    · rwa [List.map_fst_zip (by rw [List.length_map]; omega)]
    · rw [List.zip_map_left]
      exact List.mem_map_of_mem mem
  · cases h

/-- An operator that computes some of its streams has the values of one that is given all of them. -/
theorem Lambda.withStreams_run {leading : Nat} (fits : Fits S n op.bound) (inside : op.Scoped S leading)
    (given : op.params = lead ++ streams.map Prod.fst) (matched : flags.length = streams.length)
    (placed : Fits (S.bind (lead.map Binder.name)) n' (boundInStms before ++ (pick flags streams).map fun s => s.1.name))
    (computes : ∀ ρ, σ.SameBut (lead.map Binder.name ++ (pick flags streams).map fun s => s.1.name) ρ →
      (∀ p ∈ lead.zip xs, ρ.cell p.1.name = ⟨some p.2, none, none⟩) →
      ∃ τ, runStms (.lenient how) ρ before = .ok τ ∧ ∀ p ∈ pick (flags.map (!·)) (streams.zip ys), (τ.cell p.1.1.name).value = some p.2)
    (leads : lead.length = xs.length) (full : streams.length = ys.length) (runs : op.run (.lenient how) σ (xs ++ ys) = .ok vs) :
    (op.withStreams lead (pick flags streams) before).run (.lenient how) σ (xs ++ pick flags ys) = .ok vs := by
  have body := (op.scoped_iff.mp inside).2.2.2
  rw [op.bound_eq] at fits
  rw [op.run_eq] at runs
  obtain ⟨e, bound, runs⟩ := bind_eq_ok.mp runs
  have keptLength : (pick flags streams).length = (pick flags ys).length := by
    rw [length_pick matched, length_pick (matched.trans full)]
  have names : (lead ++ (pick flags streams).map Prod.fst).map Binder.name =
      lead.map Binder.name ++ (pick flags streams).map fun s => s.1.name := by
    rw [List.map_append, List.map_map]
    rfl
  have distinct : ((lead ++ (pick flags streams).map Prod.fst).map Binder.name).Nodup := by
    rw [names, List.nodup_append]
    refine ⟨?_, placed.right.distinct, ?_⟩
    · have all := fits.left.distinct
      rw [given, List.map_append] at all
      exact (List.nodup_append.mp all).1
    · rintro v first w second rfl
      exact placed.right.apart v second (.inr first)
  obtain ⟨e', bound'⟩ : ∃ e', σ.env.bindParams (lead ++ (pick flags streams).map Prod.fst) (xs ++ pick flags ys) = .ok e' :=
    ⟨_, if_pos (by simp only [List.length_append, List.length_map, leads, keptLength])⟩
  have values := Env.bindParams_values fits.left.distinct bound
  have values' := Env.bindParams_values distinct bound'
  rw [given, List.zip_append leads, List.forall_mem_append] at values
  rw [List.zip_append leads, List.forall_mem_append] at values'
  have same : σ.SameBut (lead.map Binder.name ++ (pick flags streams).map fun s => s.1.name)
      (σ.inside (lead.map Binder.name ++ (pick flags streams).map fun s => s.1.name) e') := by
    apply Store.sameBut_inside
    intro v other
    exact Env.bindParams_frame bound' (names ▸ other)
  have leading (p : Binder × Value) (mem : p ∈ lead.zip xs) :
      (σ.inside (lead.map Binder.name ++ (pick flags streams).map fun s => s.1.name) e').cell p.1.name = ⟨some p.2, none, none⟩ := by
    rw [Store.cell_inside_of_mem, values'.1 p mem]
    exact List.mem_append_left _ (List.mem_map_of_mem (List.of_mem_zip mem).1)
  obtain ⟨τ, ran, computed⟩ := computes _ same leading
  rw [Lambda.run_eq, Lambda.withStreams, bound', ok_bind, names, Body.run_append, ran, ok_bind, Body.eta]
  refine Body.run_mono fits.right.distinct (fun v mem => ?_) runs
  have frame (v : Name) (visible : S.bind (lead.map Binder.name) v) :
      τ.cell v = (σ.inside (lead.map Binder.name ++ (pick flags streams).map fun s => s.1.name) e').cell v := by
    apply runStms_sameBut ran
    intro own
    exact placed.left.apart v (mem_boundInStms_of_stmNames own) visible
  rcases Body.Scoped.reads _ body v mem with visible | own
  · -- a name from outside
    have notParam : v ∉ op.params.map Binder.name := fun own => fits.left.apart v own visible
    rw [frame v (.inl visible), same v, Store.cell_inside notParam (Env.bindParams_frame bound notParam)]
    · exact .refl _
    · rw [List.mem_append, not_or]
      refine ⟨fun own => notParam ?_, fun own => placed.right.apart v own (.inl visible)⟩
      rw [given, List.map_append]
      exact List.mem_append_left _ own
  rw [Store.cell_inside_of_mem own]
  rw [given, List.map_append, List.mem_append] at own
  rcases own with first | stream
  · rw [← List.map_fst_zip (Nat.le_of_eq leads), List.map_map] at first
    obtain ⟨p, among, rfl⟩ := List.mem_map.mp first
    have value : e.get? p.1.name = some p.2 := values.1 p among
    have kept : S.bind (lead.map Binder.name) p.1.name := .inr (List.mem_map_of_mem (List.of_mem_zip among).1)
    rw [Function.comp, value, frame _ kept, leading p among]
    exact .refl _
  · rw [← List.map_fst_zip (Nat.le_of_eq full), List.map_map, List.map_map] at stream
    obtain ⟨q, among, rfl⟩ := List.mem_map.mp stream
    have paired {flags : List Bool} (mem : q ∈ pick flags (streams.zip ys)) :
        (q.1.1, q.2) ∈ ((pick flags streams).map Prod.fst).zip (pick flags ys) := by
      rw [← pick_zip flags full] at mem
      rw [List.zip_map_left]
      exact List.mem_map_of_mem mem
    have value : e.get? q.1.1.name = some q.2 := by
      refine values.2 (q.1.1, q.2) ?_
      rw [List.zip_map_left]
      exact List.mem_map_of_mem among
    simp only [Function.comp, value]
    apply Cell.Below.of_value
    rcases mem_pick_or (by rw [List.length_zip, ← full, Nat.min_self, matched]) among with kept | fused
    · have own : q.1.1.name ∈ (pick flags streams).map fun s => s.1.name := by
        rw [← pick_zip flags full] at kept
        exact List.mem_map_of_mem (List.of_mem_zip kept).1
      rw [runStms_sameBut ran _ fun bound => ?_, Store.cell_inside_of_mem (List.mem_append_right _ own)]
      · exact values'.2 _ (paired kept)
      · exact (List.nodup_append.mp placed.distinct).2.2 _ (mem_boundInStms_of_stmNames bound) _ own rfl
    · exact computed q fused

end

/-! Streams that count -/

/-- The streams that stay. -/
def keptFlags (table : SymbolTable) (streams : List (Binder × Name)) : List Bool :=
  streams.map fun s => (countsFrom table s.2).isNone

section
variable {streams : List (Binder × Name)} {fused : List (Binder × Operand)} {ys : List Value}

theorem otherStreams_eq (table : SymbolTable) (streams : List (Binder × Name)) :
    otherStreams table streams = pick (keptFlags table streams) streams := (pick_map _ streams).symm

/-- A stream that does not stay counts, and is computed. -/
theorem exists_iotaParam (full : streams.length = ys.length) {p : (Binder × Name) × Value}
    (mem : p ∈ pick ((keptFlags table streams).map (!·)) (streams.zip ys)) :
    p ∈ streams.zip ys ∧ ∃ start, countsFrom table p.1.2 = some start ∧ (p.1.1, start) ∈ iotaParams table streams := by
  have firsts : (streams.zip ys).map Prod.fst = streams := List.map_fst_zip (Nat.le_of_eq full)
  have flags : (keptFlags table streams).map (!·) = (streams.zip ys).map fun p => !(countsFrom table p.1.2).isNone := by
    rw [keptFlags]
    conv_lhs => rw [← firsts]
    simp only [List.map_map]
    rfl
  rw [flags, pick_map, List.mem_filter] at mem
  refine ⟨mem.1, ?_⟩
  cases counted : countsFrom table p.1.2 with
  | none =>
    rw [counted] at mem
    cases mem.2
  | some start =>
    refine ⟨start, rfl, List.mem_filterMap.mpr ⟨p.1, (List.of_mem_zip mem.1).1, ?_⟩⟩
    rw [counted]
    rfl

/-- An array that counts holds the words from its start on. -/
theorem SymbolTable.Known.counts (known : table.Known how σ) {v : Name} {start : Operand} {a : ArrayValue}
    (counted : countsFrom table v = some start) (read : σ.env.array v = .ok a) :
    ∃ m first, σ.env.scalar start = .ok (.i64 first) ∧ a = wordArray (iotaValues m first 1) := by
  unfold countsFrom at counted
  split at counted
  · rename_i count begin stride defined
    split at counted
    · rename_i one
      cases counted
      obtain ⟨m, first, step, _, begins, steps, made⟩ := Lenient.leaf_iota_eq_ok (known.value defined rfl (Env.array_eq_ok.mp read))
      have unit : σ.env.word stride = .ok 1 := by
        cases stride with
        | const c => exact Env.word_eq_ok.mpr ⟨c, rfl, one⟩
        | var w => cases one
      cases unit.symm.trans steps
      rw [Value.words_eq] at made
      cases made
      exact ⟨m, first, begins, rfl⟩
    · cases counted
  · cases counted

/-- The sum of two words. -/
theorem Stm.sum_runs {v : Name} {x y : Operand} {a b : Int64} (left : σ.env.scalar x = .ok (.i64 a)) (right : σ.env.scalar y = .ok (.i64 b)) :
    ∃ τ, (Stm.ofWord v (.binary .add x y)).run (.lenient how) σ = .ok τ ∧ τ.cell v = ⟨some (.word (a + b)), none, none⟩ := by
  have value : (Exp.binary .add x y).run (.lenient how) σ = .ok [.word (a + b)] := by
    change Lenient.leaf how.typed σ (.binary .add x y) = _
    rw [Lenient.leaf, left, ok_bind, right, ok_bind]
    rfl
  exact Stm.single_of_ok value

theorem Env.scalar_of_value {env : Env} {v : Name} {c : Scalar} (there : env.get? v = some (.scalar c)) : env.scalar (.var v) = .ok c := by
  rw [scalar, operand, lookup_eq_ok.mpr there]
  rfl

theorem stmNames_iotaElements (position : Name) (fused : List (Binder × Operand)) :
    stmNames (iotaElements position fused) = fused.map fun f => f.1.name := by
  induction fused with
  | nil => rfl
  | cons f fused ih =>
    rw [iotaElements, List.map_cons, stmNames_cons, ← iotaElements, ih]
    rfl

/-- The elements of iotas at a position. -/
theorem iotaElements_run {position : Name} {i : Nat} (visible : S position) (there : σ.env.get? position = some (.count i))
    (fits : Fits S n (fused.map fun f => f.1.name)) (starts : ∀ f ∈ fused, InScope S f.2.free ∧ ∃ first, σ.env.scalar f.2 = .ok (.i64 first)) :
    ∃ τ, runStms (.lenient how) σ (iotaElements position fused) = .ok τ ∧
      ∀ f ∈ fused, ∀ first, σ.env.scalar f.2 = .ok (.i64 first) → (τ.cell f.1.name).value = some (.word (.ofNat i + first)) := by
  induction fused generalizing σ with
  | nil => exact ⟨σ, rfl, fun _ mem => absurd mem List.not_mem_nil⟩
  | cons f fused ih =>
    obtain ⟨⟨inside, first, begins⟩, later⟩ := List.forall_mem_cons.mp starts
    have fits : Fits S n ([f.1.name] ++ fused.map fun f => f.1.name) := fits
    obtain ⟨υ, ran, cell⟩ := @Stm.sum_runs how σ f.1.name _ _ _ _ (Env.scalar_of_value there) begins
    have agree : σ.env.Agree S υ.env := by
      apply Store.SameBut.agree (Stm.run_sameBut ran)
      intro v own
      exact List.mem_singleton.mp own ▸ fits.left.apart _ List.mem_cons_self
    obtain ⟨τ, ranRest, values⟩ := ih (agree position visible ▸ there) fits.right fun g mem => by
      obtain ⟨inside, first, begins⟩ := later g mem
      exact ⟨inside, first, agree.scalar inside ▸ begins⟩
    refine ⟨τ, ?_, List.forall_mem_cons.mpr ⟨fun first' begins' => ?_, fun g mem first begins => ?_⟩⟩
    · rw [iotaElements, List.map_cons, runStms_cons, ran]
      exact ranRest
    · cases begins.symm.trans begins'
      rw [runStms_sameBut ranRest, cell]
      rw [stmNames_iotaElements]
      exact (List.nodup_cons.mp fits.distinct).1
    · exact values g mem first (agree.scalar (later g mem).1 ▸ begins)

variable {op : Lambda} {lead : List Binder} {before : List Stm} {rest : Scope → Prop}

theorem streams_fit (table : SymbolTable) (fits : Fits S n op.bound) (given : op.params = lead ++ streams.map Prod.fst) :
    Fits (S.bind (lead.map Binder.name)) n
      (((otherStreams table streams).map Prod.fst).map Binder.name ++ ((iotaParams table streams).map Prod.fst).map Binder.name) := by
  have entered : Fits (S.bind (lead.map Binder.name)) n ((streams.map Prod.fst).map Binder.name) := by
    apply Fits.enter
    rw [← List.map_append, ← given]
    exact (op.bound_eq ▸ fits).left
  refine entered.part fun v => ?_
  have divided := ((streams_perm table streams).map Binder.name).count_eq v
  rw [List.map_append, List.count_append] at divided
  rw [List.count_append]
  omega

/-- The bindings of the streams that are computed fit behind the other parameters. -/
theorem streams_placed (fits : Fits S n op.bound) (given : op.params = lead ++ streams.map Prod.fst)
    (moves : Moves (S.bind (lead.map Binder.name)) n n' (((iotaParams table streams).map Prod.fst).map Binder.name) before [] rest) :
    Fits (S.bind (lead.map Binder.name)) n' (boundInStms before ++ (pick (keptFlags table streams) streams).map fun s => s.1.name) := by
  have names : (pick (keptFlags table streams) streams).map (fun s => s.1.name) = ((otherStreams table streams).map Prod.fst).map Binder.name := by
    rw [otherStreams_eq, List.map_map]
    rfl
  have moved := (moves.under (((otherStreams table streams).map Prod.fst).map Binder.name)).fits (streams_fit table fits given)
  rwa [names, ← List.append_nil (((otherStreams table streams).map Prod.fst).map Binder.name)]

/-- What is around an operator is the same in its body. -/
theorem streams_agree {ρ : Store} {flags : List Bool} (fits : Fits S n op.bound) (given : op.params = lead ++ streams.map Prod.fst)
    (placed : Fits (S.bind (lead.map Binder.name)) n' (boundInStms before ++ (pick flags streams).map fun s => s.1.name))
    (same : σ.SameBut (lead.map Binder.name ++ (pick flags streams).map fun s => s.1.name) ρ) : σ.env.Agree S ρ.env := by
  apply same.agree
  intro v own visible
  rcases List.mem_append.mp own with first | kept
  · refine (op.bound_eq ▸ fits).left.apart v ?_ visible
    rw [given, List.map_append]
    exact List.mem_append_left _ first
  · exact placed.right.apart v kept (.inl visible)

theorem forall₂_comp {α β γ : Type} {first : α → β → Prop} {second : β → γ → Prop} {xs : List α} {ys : List β} {zs : List γ}
    (h : List.Forall₂ first xs ys) (h' : List.Forall₂ second ys zs) : List.Forall₂ (fun x z => ∃ y, first x y ∧ second y z) xs zs := by
  induction h generalizing zs with
  | nil =>
    cases h'
    exact .nil
  | cons head _ ih =>
    cases h' with
    | cons head' tail' => exact .cons ⟨_, head, head'⟩ (ih tail')

/-- The iotas that are computed begin with a word. -/
theorem iotaParams_begin {ρ : Store} {arrays : List ArrayValue} (known : table.Known how σ) (within : table.Within S)
    (read : (streams.map Prod.snd).mapM σ.env.array = .ok arrays) (agree : σ.env.Agree S ρ.env) :
    ∀ f ∈ iotaParams table streams, ∃ first, ρ.env.scalar f.2 = .ok (.i64 first) := by
  intro f mem
  obtain ⟨s, among, made⟩ := List.mem_filterMap.mp mem
  obtain ⟨start, counted, rfl⟩ := Option.map_eq_some_iff.mp made
  obtain ⟨a, array⟩ := exists_of_mapM read (List.mem_map_of_mem among)
  obtain ⟨_, first, begins, _⟩ := known.counts counted array
  exact ⟨first, agree.scalar (iotaParams_inScope within mem) ▸ begins⟩

/-- An operator that computes its iotas has the values of one that is given them. -/
theorem Lambda.computed_run {leading : Nat} {xs ys vs : List Value} {arrays : List ArrayValue} {part : Int64 → Value}
    (known : table.Known how σ) (within : table.Within S) (fits : Fits S n op.bound) (inside : op.Scoped S leading)
    (given : op.params = lead ++ streams.map Prod.fst) (leads : lead.length = xs.length)
    (moves : Moves (S.bind (lead.map Binder.name)) n n' (((iotaParams table streams).map Prod.fst).map Binder.name) before [] rest)
    (read : (streams.map Prod.snd).mapM σ.env.array = .ok arrays)
    (parts : List.Forall₂ (fun a y => ∀ m first, a = wordArray (iotaValues m first 1) → y = part first) arrays ys)
    (computes : ∀ ρ, σ.env.Agree S ρ.env → (∀ p ∈ lead.zip xs, ρ.env.get? p.1.name = some p.2) →
      (∀ f ∈ iotaParams table streams, ∃ first, ρ.env.scalar f.2 = .ok (.i64 first)) →
      ∃ τ, runStms (.lenient how) ρ before = .ok τ ∧ ∀ f ∈ iotaParams table streams, ∀ first, ρ.env.scalar f.2 = .ok (.i64 first) →
        (τ.cell f.1.name).value = some (part first))
    (runs : op.run (.lenient how) σ (xs ++ ys) = .ok vs) :
    (op.withStreams lead (otherStreams table streams) before).run (.lenient how) σ (xs ++ pick (keptFlags table streams) ys) = .ok vs := by
  have each := forall₂_comp (mapM_eq_ok.mp read) parts
  have full : streams.length = ys.length := by rw [← each.length_eq, List.length_map]
  have placed := streams_placed fits given moves
  rw [otherStreams_eq]
  refine Lambda.withStreams_run fits inside given (List.length_map _) placed (fun ρ same first => ?_) leads full runs
  have agree := streams_agree fits given placed same
  obtain ⟨τ, ran, values⟩ := computes ρ agree (fun p mem => congrArg Cell.value (first p mem)) (iotaParams_begin known within read agree)
  refine ⟨τ, ran, fun p mem => ?_⟩
  obtain ⟨among, start, counted, param⟩ := exists_iotaParam full mem
  obtain ⟨a, array, made⟩ := List.forall₂_zip (List.forall₂_map_left_iff.mp each) among
  obtain ⟨m, begin, begins, rfl⟩ := known.counts counted array
  rw [made m begin rfl]
  exact values _ param begin (agree.scalar (iotaParams_inScope within param) ▸ begins)

theorem iotaParams_fit (table : SymbolTable) (fits : Fits S n op.bound) (given : op.params = lead ++ streams.map Prod.fst) :
    Fits (S.bind (lead.map Binder.name)) n ((iotaParams table streams).map fun f => f.1.name) := by
  have fit := (streams_fit table fits given).right
  rwa [List.map_map] at fit

/-- An operator on elements that computes those of its iotas. -/
theorem Lambda.iotaElements_run {leading : Nat} {index : Binder} {others : List Binder} {i : Nat} {accs elems vs : List Value}
    {arrays : List ArrayValue} (known : table.Known how σ) (within : table.Within S) (fits : Fits S n op.bound)
    (inside : op.Scoped S leading) (given : op.params = (index :: others) ++ streams.map Prod.fst) (leads : others.length = accs.length)
    (read : (streams.map Prod.snd).mapM σ.env.array = .ok arrays) (taken : (arrays.mapM fun a => a.row i) = .ok elems)
    (runs : op.run (.lenient how) σ (.count i :: accs ++ elems) = .ok vs) :
    (op.withStreams (index :: others) (otherStreams table streams) (iotaElements index.name (iotaParams table streams))).run (.lenient how) σ
      (.count i :: accs ++ pick (keptFlags table streams) elems) = .ok vs := by
  have starts : ∀ f ∈ iotaParams table streams, InScope (S.bind ((index :: others).map Binder.name)) f.2.free :=
    fun f mem => (iotaParams_inScope within mem).mono fun _ => .inl
  refine @Lambda.computed_run how S n n σ table _ op _ _ _ _ _ _ _ _ (fun first => .word (.ofNat i + first)) known within fits inside given
    (by simp [leads]) (iotaElements_moves (.inr List.mem_cons_self) starts) read ?_ (fun ρ agree first begin => ?_) runs
  · refine (mapM_eq_ok.mp taken).imp fun a y row m first counts => ?_
    obtain ⟨w, found, shown⟩ := wordArray.eq_of_row (counts ▸ row)
    rw [shown, iotaValues_getElem? found, Int64.mul_one, Int64.add_comm]
  · have there : ρ.env.get? index.name = some (.count i) := first (index, .count i) List.mem_cons_self
    exact ArrayKernels.iotaElements_run (.inr List.mem_cons_self) there (iotaParams_fit table fits given)
      fun f mem => ⟨starts f mem, begin f mem⟩

end

/-! Scans and scatters -/

theorem otherStreams_arrays {streams : List (Binder × Name)} {env : Env} {arrays : List ArrayValue}
    (read : (streams.map Prod.snd).mapM env.array = .ok arrays) :
    ((otherStreams table streams).map Prod.snd).mapM env.array = .ok (pick (keptFlags table streams) arrays) := by
  rw [otherStreams_eq, map_pick]
  exact pick_mapM _ read

section
variable {flags : List Bool} {names : List Name} {env : Env} {op op' : List Value → Eval (List Value)} {vs : List Value}

/-- A scan whose operator does without some of its streams. -/
theorem ScanKernel.run_fewer {k : ScanKernel} {fold : Lambda}
    (kept : ∀ arrays, k.arrays.mapM env.array = .ok arrays → names.mapM env.array = .ok (pick flags arrays))
    (each : ∀ arrays i accs elems next, k.arrays.mapM env.array = .ok arrays → (arrays.mapM fun a => a.row i) = .ok elems →
      accs.length = k.neutral.length → op (.count i :: accs ++ elems) = .ok next → op' (.count i :: accs ++ pick flags elems) = .ok next)
    (runs : k.run op env = .ok vs) : { k with fold := fold, arrays := names }.run op' env = .ok vs := by
  obtain ⟨width, sized, runs⟩ := bind_eq_ok.mp runs
  obtain ⟨arrays, read, runs⟩ := bind_eq_ok.mp runs
  obtain ⟨start, begun, runs⟩ := bind_eq_ok.mp runs
  obtain ⟨steps, stepped, runs⟩ := bind_eq_ok.mp runs
  -- the accumulators of both scans are the same after each step
  have scanned : Follows False (List.Forall₂ Eq) (scanFrom (step op arrays start.length) width 0 start)
      (scanFrom (step op' (pick flags arrays) start.length) width 0 start) := by
    refine @Follows.scanFrom _ _ _ _ _ _ (fun _ accs accs' => accs = accs' ∧ accs.length = start.length) _ _ _ _ ?_ ?_ ?_
    · exact ⟨rfl, rfl⟩
    · rintro i accs _ _ _ ⟨rfl, long⟩
      refine ⟨fun next ran => ?_, False.elim⟩
      obtain ⟨elems, taken, ran⟩ := bind_eq_ok.mp ran
      obtain ⟨values, computed, ran⟩ := bind_eq_ok.mp ran
      split at ran
      · rename_i full
        cases ran
        refine ⟨next, ?_, rfl, full⟩
        have computed' := each arrays i accs elems next read taken (long.trans (mapM_eq_ok.mp begun).length_eq.symm) computed
        rw [step, pick_mapM flags taken, ok_bind, computed', ok_bind, if_pos full]
      · cases ran
    · intro _ _ _ same
      exact same.1
  obtain ⟨steps', stepped', same⟩ := scanned.forth steps stepped
  cases List.forall₂_eq_eq_eq ▸ same
  exact bind_eq_ok.mpr ⟨width, sized, bind_eq_ok.mpr ⟨_, kept arrays read, bind_eq_ok.mpr ⟨start, begun, bind_eq_ok.mpr ⟨steps, stepped', runs⟩⟩⟩⟩

/-- A scatter whose operator does without some of its streams. -/
theorem ScatterKernel.run_fewer {k : ScatterKernel} {lambda : Lambda}
    (kept : ∀ arrays, k.arrays.mapM env.array = .ok arrays → names.mapM env.array = .ok (pick flags arrays))
    (each : ∀ arrays i elems values, k.arrays.mapM env.array = .ok arrays → (arrays.mapM fun a => a.row i) = .ok elems →
      op (.count i :: elems) = .ok values → op' (.count i :: pick flags elems) = .ok values)
    (runs : k.run op env = .ok vs) : { k with op := lambda, arrays := names }.run op' env = .ok vs := by
  obtain ⟨width, sized, runs⟩ := bind_eq_ok.mp runs
  obtain ⟨arrays, read, runs⟩ := bind_eq_ok.mp runs
  obtain ⟨dests, began, runs⟩ := bind_eq_ok.mp runs
  obtain ⟨written, wrote, runs⟩ := bind_eq_ok.mp runs
  have scattered : Follows False Eq (iterate (step op arrays) width 0 dests) (iterate (step op' (pick flags arrays)) width 0 dests) := by
    refine @Follows.iterate _ _ _ _ _ (fun _ dests dests' => dests = dests') _ _ _ _ ?_ ?_
    · rfl
    · rintro i dests _ _ _ rfl
      refine ⟨fun next ran => ⟨next, ?_, rfl⟩, False.elim⟩
      obtain ⟨elems, taken, ran⟩ := bind_eq_ok.mp ran
      obtain ⟨values, computed, ran⟩ := bind_eq_ok.mp ran
      rw [step, pick_mapM flags taken, ok_bind, each arrays i elems values read taken computed]
      exact ran
  obtain ⟨_, wrote', rfl⟩ := scattered.forth written wrote
  exact bind_eq_ok.mpr ⟨width, sized, bind_eq_ok.mpr ⟨_, kept arrays read, bind_eq_ok.mpr ⟨dests, began, bind_eq_ok.mpr ⟨written, wrote', runs⟩⟩⟩⟩

end

/-- The fold of a scan computes the elements of its iotas. -/
theorem inlineScanIotas_sound : TopDownRule.Sound how inlineScanIotas := by
  intro table stm names new names' S applied within fits inside σ known
  obtain ⟨k, index, params, streams, launched, given, matched, rfl, _, rfl, rfl⟩ := inlineScanIotas_eq_some applied
  have bound : Fits S names'.next (Kernel.scan k).bound := by
    rw [← Exp.bound, ← launched]
    exact fits.right
  rw [Kernel.bound_scan] at bound
  have fold := ((Kernel.scoped_scan k).mp (launched ▸ inside.2.2 : (Exp.launch (.scan k)).Scoped S)).2.2
  have short : (params.drop k.neutral.length).length = k.arrays.length := by
    rw [List.length_drop]
    omega
  have arraysOf : ((params.drop k.neutral.length).zip k.arrays).map Prod.snd = k.arrays := List.map_snd_zip (Nat.le_of_eq short.symm)
  have all : k.fold.params = (index :: params.take k.neutral.length) ++ ((params.drop k.neutral.length).zip k.arrays).map Prod.fst := by
    rw [List.map_fst_zip (Nat.le_of_eq short), List.cons_append, List.take_append_drop, given]
  apply Replaces.withKernel launched
  intro vs runs
  rw [Kernel.run_scan] at runs ⊢
  refine ScanKernel.run_fewer (fun arrays read => otherStreams_arrays (arraysOf.symm ▸ read)) (fun arrays i accs elems next read taken long => ?_) runs
  apply Lambda.iotaElements_run known within bound.right fold all ?_ (arraysOf.symm ▸ read) taken
  rw [List.length_take, long]
  omega

/-- The operator of a scatter computes the elements of its iotas. -/
theorem inlineScatterIotas_sound : TopDownRule.Sound how inlineScatterIotas := by
  intro table stm names new names' S applied within fits inside σ known
  obtain ⟨k, index, params, launched, given, matched, _, rfl, rfl⟩ := inlineScatterIotas_eq_some applied
  have bound : Fits S names'.next (Kernel.scatter k).bound := by
    rw [← Exp.bound, ← launched]
    exact fits.right
  rw [Kernel.bound_scatter] at bound
  have op := ((Kernel.scoped_scatter k).mp (launched ▸ inside.2.2 : (Exp.launch (.scatter k)).Scoped S)).2
  have arraysOf : (params.zip k.arrays).map Prod.snd = k.arrays := List.map_snd_zip (Nat.le_of_eq matched.symm)
  have all : k.op.params = [index] ++ (params.zip k.arrays).map Prod.fst := by
    rw [List.map_fst_zip (Nat.le_of_eq matched), given]
    rfl
  apply Replaces.withKernel launched
  intro vs runs
  rw [Kernel.run_scatter] at runs ⊢
  refine ScatterKernel.run_fewer (fun arrays read => otherStreams_arrays (arraysOf.symm ▸ read)) (fun arrays i elems values read taken => ?_) runs
  exact @Lambda.iotaElements_run how S _ σ table _ k.op _ index [] i [] elems values arrays known within bound op all rfl (arraysOf.symm ▸ read) taken

/-! Chunks -/

namespace Division

/-- The first row of a thread that has rows. -/
def first (division : Division) (t perThread : Nat) : Nat :=
  match division with
  | .contiguous => t * perThread
  | .strided => t

/-- The distance of the rows of a thread. -/
def stride (division : Division) (threads : Nat) : Nat :=
  match division with
  | .contiguous => 1
  | .strided => threads

variable {division : Division} {t threads perThread width i j : Nat}

theorem rows_getElem? (below : t < threads) (h : (division.rows t threads perThread width)[j]? = some i) :
    i = division.first t perThread + j * division.stride threads := by
  cases division with
  | contiguous =>
    obtain ⟨inside, rfl⟩ := List.getElem?_eq_some_iff.mp h
    rw [rows, List.length_range'] at inside
    simp only [rows, List.getElem_range', first, stride]
    omega
  | strided =>
    obtain ⟨_, rfl⟩ := List.getElem?_eq_some_iff.mp h
    simp only [rows, List.getElem_range', first, stride]
    rw [Nat.max_eq_left (by omega), Nat.mul_comm]

theorem length_rows_le (division : Division) (t threads perThread width : Nat) : (division.rows t threads perThread width).length ≤ width := by
  cases division with
  | contiguous =>
    rw [rows, List.length_range']
    omega
  | strided =>
    rw [rows, List.length_range']
    have positive : 0 < max threads 1 := by omega
    apply Nat.le_of_lt_succ
    rw [Nat.div_lt_iff_lt_mul positive]
    have : width ≤ width * max threads 1 := Nat.le_mul_of_pos_right _ positive
    rw [Nat.succ_mul]
    omega

end Division

/-- The rows of an array that counts, at a constant distance. -/
theorem takeRows_iotaValues {m first stride : Nat} {begin : Int64} {numbers : List Nat} {b : ArrayValue}
    (rows : ∀ j i, numbers[j]? = some i → i = first + j * stride) (taken : (wordArray (iotaValues m begin 1)).takeRows numbers = .ok b) :
    b = wordArray (iotaValues numbers.length (.ofNat first + begin) (.ofNat stride)) := by
  obtain ⟨ms, each, rfl⟩ := wordArray.eq_of_takeRows taken
  congr 1
  apply List.ext_getElem
  · rw [iotaValues, List.length_map, List.length_range, each.length_eq]
  · intro j small _
    have below : j < numbers.length := each.length_eq ▸ small
    have value := iotaValues_getElem? (each.get below small)
    rw [List.get_eq_getElem, List.get_eq_getElem, rows j _ (List.getElem?_eq_getElem below)] at value
    simp only [iotaValues, List.getElem_map, List.getElem_range]
    rw [value, Int64.ofNat_add, Int64.ofNat_mul, Int64.mul_one]
    ac_rfl

theorem Env.word_of_size {env : Env} {x : Operand} {m : Nat} (sized : env.size x = .ok m) : env.word x = .ok (.ofNat m) ∧ m < 2 ^ 63 := by
  obtain ⟨w, word, sized⟩ := bind_eq_ok.mp sized
  split at sized
  · cases sized
  · rename_i positive
    cases sized
    rw [Int64.toNat_toInt, Int64.ofNat_toNatClampNeg _ (Int64.not_lt.mp positive)]
    exact ⟨word, Int64.toNatClampNeg_lt w⟩

theorem Env.size_of_count {env : Env} {v : Name} {m : Nat} (there : env.get? v = some (.count m)) (small : m < 2 ^ 63) :
    env.size (.var v) = .ok m := by
  have positive : ¬ (Int64.ofNat m < 0) := by
    rw [Int64.not_lt, Int64.le_iff_toInt_le, Int64.toInt_ofNat_of_lt small]
    exact Int.natCast_nonneg m
  rw [size, word_eq_ok.mpr ⟨_, scalar_of_value there, rfl⟩, ok_bind, if_neg positive, Int64.toInt_ofNat_of_lt small, Int.toNat_natCast]

/-- The product of a wide word and a word. -/
theorem Stm.wideProduct_runs {v : Name} {x y : Operand} {a b : Int64} (left : σ.env.scalar x = .ok (.i64 a)) (right : σ.env.word y = .ok b) :
    ∃ τ, (Stm.ofWord v (.binary .mul x y)).run (.lenient how) σ = .ok τ ∧ (τ.cell v).value = some (.word (a * b)) := by
  obtain ⟨c, read, word⟩ := Env.word_eq_ok.mp right
  have made : Lenient.binary .mul (.i64 a) c (σ.exactOf y) = .ok (.i64 (a * b)) := by
    cases c with
    | i64 _ | i32 _ =>
      cases word
      rfl
    | bool _ | f32 _ | f64 _ => cases word
  have value : (Exp.binary .mul x y).run (.lenient how) σ = .ok [.word (a * b)] := by
    change Lenient.leaf how.typed σ (.binary .mul x y) = _
    rw [Lenient.leaf, left, ok_bind, read, ok_bind, made]
    rfl
  obtain ⟨τ, ran, cell⟩ := Stm.single_of_ok value
  exact ⟨τ, ran, by rw [cell]⟩

/-- The chunk of one iota, from its first element on. -/
theorem Stm.iota_runs {v count start : Name} {ty : Ty} {step : Operand} {m : Nat} {begin stride : Int64} (small : m < 2 ^ 63)
    (counted : σ.env.get? count = some (.count m)) (begins : σ.env.get? start = some (.word begin)) (steps : σ.env.word step = .ok stride) :
    ∃ τ, (Stm.single v ty (.iota (.var count) (.var start) step)).run (.lenient how) σ = .ok τ ∧
      (τ.cell v).value = some (.words (iotaValues m begin stride)) := by
  have value : (Exp.iota (.var count) (.var start) step).run (.lenient how) σ = .ok [.words (iotaValues m begin stride)] := by
    change Lenient.leaf how.typed σ (.iota (.var count) (.var start) step) = _
    rw [Lenient.leaf, Env.size_of_count counted small, ok_bind, Env.scalar_of_value begins, ok_bind]
    dsimp only
    rw [steps, ok_bind]
  obtain ⟨τ, ran, cell⟩ := Stm.single_of_ok value
  exact ⟨τ, ran, by rw [cell]⟩

/-- The statements in front bind no name of the scope. -/
theorem Env.Agree.run {stms : List Stm} {n : Nat} (ran : runStms (.lenient how) σ stms = .ok τ) (fits : Fits S n (boundInStms stms)) :
    σ.env.Agree S τ.env :=
  Store.SameBut.agree (runStms_sameBut ran) fun v own => fits.apart v (mem_boundInStms_of_stmNames own)

section
variable {param : Binder} {thread count start offset : Name} {size : LaunchSize} {x : Operand} {begin : Int64} {t threads perThread m : Nat}

/-- The chunk of one iota in a thread whose rows are apart. -/
theorem stridedChunk_run (fits : Fits S n [start, param.name]) (visible : S count ∧ InScope S size.threads.free) (small : m < 2 ^ 63)
    (numbered : σ.env.get? thread = some (.count t)) (counted : σ.env.get? count = some (.count m))
    (sized : σ.env.size size.threads = .ok threads) (begins : σ.env.scalar x = .ok (.i64 begin)) :
    ∃ τ, runStms (.lenient how) σ [.ofWord start (.binary .add (.var thread) x),
        .single param.name param.ty (.iota (.var count) (.var start) size.threads)] = .ok τ ∧
      (τ.cell param.name).value = some (.words (iotaValues m (.ofNat t + begin) (.ofNat threads))) := by
  have fits : Fits S n ([start] ++ [param.name]) := fits
  obtain ⟨υ, first, cell⟩ := @Stm.sum_runs how σ start _ _ _ _ (Env.scalar_of_value numbered) begins
  have agree : σ.env.Agree S υ.env := Store.SameBut.agree (Stm.run_sameBut first) fits.left.apart
  obtain ⟨τ, second, value⟩ := @Stm.iota_runs how υ param.name count start param.ty size.threads m (.ofNat t + begin) (.ofNat threads) small
    (agree _ visible.1 ▸ counted) (congrArg Cell.value cell) (Env.word_of_size (agree.size visible.2 ▸ sized)).1
  refine ⟨τ, ?_, value⟩
  rw [runStms_cons, first, ok_bind, runStms_cons, second]
  rfl

/-- The chunk of one iota in a thread whose rows are next to each other. -/
theorem contiguousChunk_run (fits : Fits S n [offset, start, param.name]) (visible : S count ∧ InScope S x.free) (small : m < 2 ^ 63)
    (numbered : σ.env.get? thread = some (.count t)) (counted : σ.env.get? count = some (.count m))
    (chunked : σ.env.size size.chunk = .ok perThread) (begins : σ.env.scalar x = .ok (.i64 begin)) :
    ∃ τ, runStms (.lenient how) σ [.ofWord offset (.binary .mul (.var thread) size.chunk), .ofWord start (.binary .add (.var offset) x),
        .single param.name param.ty (.iota (.var count) (.var start) (.word 1))] = .ok τ ∧
      (τ.cell param.name).value = some (.words (iotaValues m (.ofNat (t * perThread) + begin) (.ofNat 1))) := by
  have fits : Fits S n ([offset] ++ ([start] ++ [param.name])) := fits
  obtain ⟨υ, first, scaled⟩ := @Stm.wideProduct_runs how σ offset _ _ _ _ (Env.scalar_of_value numbered) (Env.word_of_size chunked).1
  have agree : σ.env.Agree S υ.env := Store.SameBut.agree (Stm.run_sameBut first) fits.left.apart
  obtain ⟨ρ, second, cell⟩ := @Stm.sum_runs how υ start _ _ _ _ (Env.scalar_of_value scaled) (agree.scalar visible.2 ▸ begins)
  have agree' : υ.env.Agree S ρ.env := Store.SameBut.agree (Stm.run_sameBut second) fits.right.left.apart
  obtain ⟨τ, third, value⟩ := @Stm.iota_runs how ρ param.name count start param.ty (.word 1) m _ 1 small
    (agree' _ visible.1 ▸ agree _ visible.1 ▸ counted) (congrArg Cell.value cell) rfl
  refine ⟨τ, ?_, ?_⟩
  · rw [runStms_cons, first, ok_bind, runStms_cons, second, ok_bind, runStms_cons, third]
    rfl
  · rw [value, Int64.ofNat_mul]
    rfl

end

/-- The chunks of the iotas of a thread. -/
theorem iotaChunks_run {thread count : Name} {size : LaunchSize} {division : Division} {fused : List (Binder × Operand)} {names names' : NameSupply}
    {before : List Stm} {t threads perThread m : Nat} (made : iotaChunks thread count size division fused names = (before, names'))
    (fits : Fits S n (boundInStms before)) (visible : S thread ∧ S count ∧ InScope S size.free) (small : m < 2 ^ 63)
    (numbered : σ.env.get? thread = some (.count t)) (counted : σ.env.get? count = some (.count m))
    (sized : σ.env.size size.threads = .ok threads) (chunked : σ.env.size size.chunk = .ok perThread)
    (starts : ∀ f ∈ fused, InScope S f.2.free ∧ ∃ first, σ.env.scalar f.2 = .ok (.i64 first)) :
    ∃ τ, runStms (.lenient how) σ before = .ok τ ∧ ∀ f ∈ fused, ∀ begin, σ.env.scalar f.2 = .ok (.i64 begin) →
      (τ.cell f.1.name).value = some (.words (iotaValues m (.ofNat (division.first t perThread) + begin) (.ofNat (division.stride threads)))) := by
  induction fused generalizing σ names before with
  | nil =>
    cases made
    exact ⟨σ, rfl, fun _ mem => absurd mem List.not_mem_nil⟩
  | cons f fused ih =>
    obtain ⟨param, x⟩ := f
    obtain ⟨⟨inside, begin, begins⟩, later⟩ := List.forall_mem_cons.mp starts
    have operands := visible.2.2.launched
    simp only [InScope.union_iff] at operands
    -- the bindings of one chunk, and then the others
    suffices one : ∃ head rest mid υ, before = head ++ rest ∧ iotaChunks thread count size division fused mid = (rest, names') ∧
        runStms (.lenient how) σ head = .ok υ ∧ param.name ∈ boundInStms head ∧ (υ.cell param.name).value =
          some (.words (iotaValues m (.ofNat (division.first t perThread) + begin) (.ofNat (division.stride threads)))) by
      obtain ⟨head, rest, mid, υ, rfl, made', ran, own, value⟩ := one
      rw [boundInStms_append] at fits
      have agree := Env.Agree.run ran fits.left
      obtain ⟨τ, ranRest, values⟩ := ih made' fits.right (agree _ visible.1 ▸ numbered) (agree _ visible.2.1 ▸ counted)
        (agree.size operands.1.1 ▸ sized) (agree.size operands.2 ▸ chunked) fun g mem => by
          obtain ⟨inside, first, begins⟩ := later g mem
          exact ⟨inside, first, agree.scalar inside ▸ begins⟩
      refine ⟨τ, ?_, List.forall_mem_cons.mpr ⟨fun begin' begins' => ?_, fun g mem first begins => ?_⟩⟩
      · rw [runStms_append, ran]
        exact ranRest
      · cases begins.symm.trans begins'
        rw [runStms_sameBut ranRest, value]
        intro again
        exact (List.nodup_append.mp fits.distinct).2.2 _ own _ (mem_boundInStms_of_stmNames again) rfl
      · exact values g mem first (agree.scalar (later g mem).1 ▸ begins)
    rw [iotaChunks] at made
    dsimp only [NameSupply.fresh] at made
    cases division with
    | strided =>
      rcases others : iotaChunks thread count size .strided fused ⟨names.next + 1⟩ with ⟨rest, names₁⟩
      dsimp only at made
      rw [others] at made
      cases made
      have first : Fits S n ([⟨"iota_start", names.next⟩, param.name] ++ boundInStms rest) := fits
      obtain ⟨υ, ran, value⟩ := @stridedChunk_run how S n σ param _ _ _ size x begin t threads m first.left ⟨visible.2.1, operands.1.1⟩ small numbered
        counted sized begins
      exact ⟨_, rest, _, υ, rfl, others, ran, List.mem_cons_of_mem _ List.mem_cons_self, value⟩
    | contiguous =>
      rcases others : iotaChunks thread count size .contiguous fused ⟨names.next + 1 + 1⟩ with ⟨rest, names₁⟩
      dsimp only at made
      rw [others] at made
      cases made
      have first : Fits S n ([⟨"iota_offset", names.next + 1⟩, ⟨"iota_start", names.next⟩, param.name] ++ boundInStms rest) := fits
      obtain ⟨υ, ran, value⟩ := @contiguousChunk_run how S n σ param _ _ _ _ size x begin t perThread m first.left ⟨visible.2.1, inside⟩ small
        numbered counted chunked begins
      exact ⟨_, rest, _, υ, rfl, others, ran, List.mem_cons_of_mem _ (List.mem_cons_of_mem _ List.mem_cons_self), value⟩

/-- An operator on chunks that computes those of its iotas. -/
theorem Lambda.iotaChunks_run {op : Lambda} {thread count : Binder} {streams : List (Binder × Name)} {size : LaunchSize} {division : Division}
    {names names' : NameSupply} {before : List Stm} {t threads perThread width : Nat} {arrays chunks : List ArrayValue} {vs : List Value}
    (known : table.Known how σ) (within : table.Within S) (fits : Fits S names.next op.bound) (inside : op.Scoped S 2)
    (given : op.params = [thread, count] ++ streams.map Prod.fst) (sizes : InScope S size.free)
    (made : iotaChunks thread.name count.name size division (iotaParams table streams) names = (before, names')) (below : t < threads)
    (small : width < 2 ^ 63) (sized : σ.env.size size.threads = .ok threads) (chunked : σ.env.size size.chunk = .ok perThread)
    (read : (streams.map Prod.snd).mapM σ.env.array = .ok arrays)
    (taken : (arrays.mapM fun a => a.takeRows (division.rows t threads perThread width)) = .ok chunks)
    (runs : op.run (.lenient how) σ (.count t :: .count (division.rows t threads perThread width).length :: chunks.map .array) = .ok vs) :
    (op.withStreams [thread, count] (otherStreams table streams) before).run (.lenient how) σ
      (.count t :: .count (division.rows t threads perThread width).length :: (pick (keptFlags table streams) chunks).map .array) = .ok vs := by
  have typed := ((Lambda.scoped_iff _).mp inside).2.1
  simp only [given, List.cons_append, List.nil_append, List.drop_succ_cons, List.drop_zero, List.take_succ_cons, List.take_zero] at typed
  have moves := iotaChunks_moves (S := S.bind [thread.name, count.name]) made (.inr List.mem_cons_self)
    (.inr (List.mem_cons_of_mem _ List.mem_cons_self)) (sizes.mono fun _ => .inl)
    (fun f mem => (InScope.union_iff.mp (typed f.1 ((streams_perm table _).subset (List.mem_append_left _ (List.mem_map_of_mem mem))))).1)
    fun f mem => (iotaParams_inScope within mem).mono fun _ => .inl
  have placed : Fits (S.bind [thread.name, count.name]) names'.next (boundInStms before) := by
    have fit := moves.fits (streams_fit table fits given).right
    rwa [List.append_nil] at fit
  rw [map_pick]
  refine @Lambda.computed_run how S _ _ σ table _ op [thread, count] _ _ _ [.count t, .count _] _ _ _
    (fun first => .words (iotaValues (division.rows t threads perThread width).length (.ofNat (division.first t perThread) + first)
      (.ofNat (division.stride threads)))) known within fits inside given rfl moves read ?_ (fun ρ agree first begin => ?_) runs
  · refine List.forall₂_map_right_iff.mpr ((mapM_eq_ok.mp taken).imp ?_)
    rintro _ b rows m first rfl
    have even (j i : Nat) (found : (division.rows t threads perThread width)[j]? = some i) := Division.rows_getElem? below found
    rw [takeRows_iotaValues even rows]
    rfl
  · have operands := sizes.launched
    simp only [InScope.union_iff] at operands
    refine ArrayKernels.iotaChunks_run made placed ⟨.inr List.mem_cons_self, .inr (List.mem_cons_of_mem _ List.mem_cons_self),
      sizes.mono fun _ => .inl⟩ (Nat.lt_of_le_of_lt (Division.length_rows_le _ _ _ _ _) small) (first (thread, _) List.mem_cons_self)
      (first (count, _) (List.mem_cons_of_mem _ List.mem_cons_self)) (agree.size operands.1.1 ▸ sized) (agree.size operands.2 ▸ chunked) fun f mem => ?_
    exact ⟨(iotaParams_inScope within mem).mono fun _ => .inl, begin f mem⟩

/-- A chunked kernel whose operator does without some of its streams. -/
theorem ChunkedKernel.run_fewer {flags : List Bool} {names : List Name} {env : Env} {op op' : List Value → Eval (List Value)} {vs : List Value}
    {k : ChunkedKernel} {lambda : Lambda} (returns : lambda.ret = k.op.ret)
    (kept : ∀ arrays, k.arrays.mapM env.array = .ok arrays → names.mapM env.array = .ok (pick flags arrays))
    (each : ∀ arrays width threads perThread t chunks values, env.size k.width = .ok width → env.size k.size.threads = .ok threads →
      env.size k.size.chunk = .ok perThread → k.arrays.mapM env.array = .ok arrays → t < threads →
      (arrays.mapM fun a => a.takeRows (k.division.rows t threads perThread width)) = .ok chunks →
      op (.count t :: .count (k.division.rows t threads perThread width).length :: chunks.map .array) = .ok values →
      op' (.count t :: .count (k.division.rows t threads perThread width).length :: (pick flags chunks).map .array) = .ok values)
    (runs : k.run op env = .ok vs) : { k with op := lambda, arrays := names }.run op' env = .ok vs := by
  obtain ⟨width, extent, runs⟩ := bind_eq_ok.mp runs
  obtain ⟨threads, sized, runs⟩ := bind_eq_ok.mp runs
  obtain ⟨perThread, chunked, runs⟩ := bind_eq_ok.mp runs
  obtain ⟨arrays, read, runs⟩ := bind_eq_ok.mp runs
  obtain ⟨results, computed, runs⟩ := bind_eq_ok.mp runs
  have same : Follows False (List.Forall₂ Eq)
      (collect (fun t => thread op arrays (k.division.rows t threads perThread width) t) threads)
      (collect (fun t => thread op' (pick flags arrays) (k.division.rows t threads perThread width) t) threads) := by
    apply Follows.collect
    intro t reached _
    refine ⟨fun r ran => ⟨r, ?_, rfl⟩, False.elim⟩
    obtain ⟨chunks, taken, ran⟩ := bind_eq_ok.mp ran
    obtain ⟨values, made, ran⟩ := bind_eq_ok.mp ran
    rw [thread, pick_mapM flags taken, ok_bind,
      each arrays width threads perThread t chunks values extent sized chunked read (List.mem_range.mp reached.mem) taken made]
    exact ran
  obtain ⟨_, computed', equal⟩ := same.forth results computed
  cases List.forall₂_eq_eq_eq ▸ equal
  refine bind_eq_ok.mpr ⟨width, extent, bind_eq_ok.mpr ⟨threads, sized, bind_eq_ok.mpr ⟨perThread, chunked, ?_⟩⟩⟩
  refine bind_eq_ok.mpr ⟨_, kept arrays read, bind_eq_ok.mpr ⟨results, computed', ?_⟩⟩
  rw [returns]
  exact runs

section
variable {op : Lambda} {lead : List Binder} {streams : List (Binder × Name)} {before : List Stm}

theorem Lambda.withStreams_names (table : SymbolTable) (given : op.params = lead ++ streams.map Prod.fst) {v : Name}
    (mem : v ∈ (op.withStreams lead (otherStreams table streams) before).params.map Binder.name) : v ∈ op.params.map Binder.name := by
  revert mem
  apply List.map_subset
  rw [given]
  refine List.append_subset.mpr ⟨List.subset_append_left _ _, List.subset_append_of_subset_right _ ?_⟩
  exact List.map_subset _ (List.filter_subset_self _)

/-- An operator is launched among the same cells without some of its streams. -/
theorem Lambda.cell_launch_withStreams (table : SymbolTable) (fits : Fits S n op.bound) (given : op.params = lead ++ streams.map Prod.fst) {v : Name}
    (visible : S.bind (lead.map Binder.name) v) :
    (σ.launch (op.params.map Binder.name)).cell v =
      (σ.launch ((op.withStreams lead (otherStreams table streams) before).params.map Binder.name)).cell v := by
  rcases visible with outer | own
  · have other : v ∉ op.params.map Binder.name := fun own => (op.bound_eq ▸ fits).left.apart v own outer
    rw [Store.cell_launch_of_not_mem other, Store.cell_launch_of_not_mem fun mem => other (withStreams_names table given mem)]
  · rw [Store.cell_launch, Store.cell_launch]
    · rw [withStreams, List.map_append]
      exact List.mem_append_left _ own
    · rw [given, List.map_append]
      exact List.mem_append_left _ own

end

/-- The operator of a chunked kernel computes the chunks of its iotas. -/
theorem inlineChunkIotas_sound : TopDownRule.Sound how inlineChunkIotas := by
  intro table stm names new names' S applied within fits inside σ known
  obtain ⟨k, thread, count, params, before, launched, given, matched, _, made, rfl⟩ := inlineChunkIotas_eq_some applied
  have bound : Fits S names.next (Kernel.chunked k).bound := by
    rw [← Exp.bound, ← launched]
    exact fits.right
  rw [Kernel.bound_chunked] at bound
  obtain ⟨operands, op⟩ := (Kernel.scoped_chunked k).mp (launched ▸ inside.2.2 : (Exp.launch (.chunked k)).Scoped S)
  simp only [InScope.union_iff] at operands
  have arraysOf : (params.zip k.arrays).map Prod.snd = k.arrays := List.map_snd_zip (Nat.le_of_eq matched.symm)
  have all : k.op.params = [thread, count] ++ (params.zip k.arrays).map Prod.fst := by
    rw [List.map_fst_zip (Nat.le_of_eq matched), given]
    rfl
  have returns : InScope (S.bind ([thread, count].map Binder.name)) (freeTypes k.op.ret) := by
    have typed := ((Lambda.scoped_iff _).mp op).2.2.1
    rwa [given] at typed
  apply Replaces.withKernel launched
  intro vs runs
  rw [Kernel.run_chunked, Mode.chunked] at runs ⊢
  dsimp only at runs ⊢
  -- both kernels are launched in stores that agree on what is around the streams
  have cells := @Lambda.cell_launch_withStreams S _ σ k.op [thread, count] (params.zip k.arrays) before table bound all
  have outer : (σ.launch ((k.op.withStreams [thread, count] (otherStreams table (params.zip k.arrays)) before).params.map Binder.name)).env.Agree S
      σ.env := by
    intro v visible
    refine congrArg Cell.value (Store.cell_launch_of_not_mem fun mem => ?_)
    exact (k.op.bound_eq ▸ bound).left.apart v (Lambda.withStreams_names table all mem) visible
  split at runs
  · rename_i allKnown
    rw [if_pos ?_]
    · rw [ChunkedKernel.run_agree (fun v visible => congrArg Cell.value (cells visible)) (operands.1.1.2.mono fun _ => .inl)
        (operands.1.2.mono fun _ => .inl) (operands.2.mono fun _ => .inl) returns] at runs
      refine ChunkedKernel.run_fewer rfl (fun arrays read => otherStreams_arrays (arraysOf.symm ▸ read)) ?_ runs
      intro arrays width threads perThread t chunks values extent sized chunked read below taken
      have sizes := operands.1.2.launched
      simp only [InScope.union_iff] at sizes
      exact Lambda.iotaChunks_run known within bound op all operands.1.2 made below (Env.word_of_size extent).2 (outer.size sizes.1.1 ▸ sized)
        (outer.size sizes.2 ▸ chunked) (arraysOf.symm ▸ outer.arrays operands.2 ▸ read) taken
    · rw [Store.allKnown_iff] at allKnown ⊢
      intro v mem
      rw [Lambda.withStreams] at mem
      rw [← cells (returns.rowReads v mem)]
      exact allKnown v mem
  · cases runs

theorem RuleSet.standard_sound : RuleSet.standard.Sound how := by
  constructor
  · intro table stm names new names' S applied
    obtain ⟨rule, among, applied⟩ := List.exists_of_findSome?_eq_some applied
    simp only [standard, List.mem_cons, List.not_mem_nil, or_false] at among
    rcases among with rfl | rfl | rfl | rfl | rfl | rfl
    · exact dropUnusedInputs_sound applied
    · exact inlineInputs_sound applied
    · exact hoistInvariantOutputs_sound applied
    · exact inlineChunkIotas_sound applied
    · exact inlineScanIotas_sound applied
    · exact inlineScatterIotas_sound applied
  · intro table usage stm names new names' S applied
    obtain ⟨rule, among, applied⟩ := List.exists_of_findSome?_eq_some applied
    obtain rfl := List.mem_singleton.mp among
    exact dropDeadOutputs_sound applied

end ArrayKernels
