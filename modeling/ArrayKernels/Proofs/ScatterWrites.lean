import ArrayKernels.Proofs.ArrayUpdates

/-! Scatters. The threads of a scatter write one after another, each to one row of every destination or to none of it. So a row holds
what the last thread that names it has written, and what it held before if no thread names it. -/
namespace ArrayKernels

/-- The elements of a value. -/
def Value.data : Value → Array Scalar
  | .scalar c => #[c]
  | .array a => a.data
  | .mem _ _ => #[]

namespace ArrayValue

/-- The elements of row `r`. -/
def rowData (a : ArrayValue) (r : Nat) : Array Scalar := a.data.extract (r * volume a.shape.tail) ((r + 1) * volume a.shape.tail)

variable {a b : ArrayValue} {i : Int64} {v : Value} {mismatch : EvalError}

theorem rowContent_eq_some {len : Nat} {new : Array Scalar} (h : rowContent len v = some new) : new = v.data ∧ new.size = len := by
  cases v with
  | scalar c =>
    rw [rowContent] at h
    split at h
    · rename_i one
      cases h
      exact ⟨rfl, one.symm⟩
    · cases h
  | array p =>
    rw [rowContent] at h
    split at h
    · rename_i size
      cases h
      exact ⟨rfl, size⟩
    · cases h
  | mem size space => cases h

/-- The stretch of one row in the elements of an array is not met by that of another. -/
theorem eq_of_common_row {r s len i : Nat} (above : r * len ≤ i) (below : i < (r + 1) * len) (above' : s * len ≤ i)
    (below' : i < (s + 1) * len) : r = s := by
  rw [← Nat.div_eq_of_lt_le above below, Nat.div_eq_of_lt_le above' below']

/-- The index of a row that there is. -/
theorem blockNumber_row {d n : Nat} {dims : List Nat} (h : blockNumber 0 [i] (d :: dims) = .ok n) : i.toInt = n := by
  rw [blockNumber] at h
  split at h
  · cases h
  · rename_i inside
    have low : ¬i.toInt < 0 := fun below => inside (.inl (Int64.lt_iff_toInt_lt.mpr below))
    cases dims <;>
    · cases h
      omega

/-- What writing a row does: it fills the row that the index names, if there is one, and leaves the others. -/
theorem writeRow_eq_ok (h : a.writeRow i (.ok v) mismatch = .ok b) :
    b.elem = a.elem ∧ b.shape = a.shape ∧ b.data.size = a.data.size ∧
      ∀ r < a.rows, b.rowData r = if i.toInt = r then v.data else a.rowData r := by
  rw [writeRow] at h
  split at h
  · rename_i outside
    cases h
    refine ⟨rfl, rfl, rfl, fun r below => ?_⟩
    rw [if_neg]
    intro same
    rw [Int64.lt_iff_toInt_lt, same, Int64.toInt_zero] at outside
    omega
  · rename_i inside
    obtain ⟨place, found, h⟩ := bind_eq_ok.mp h
    obtain ⟨short, n, counted, rfl⟩ := blockAt_eq_ok.mp found
    have len : a.partSize [i].length = volume a.shape.tail := by rw [partSize, List.length_singleton, List.drop_one]
    simp only [ok_bind, len] at h
    split at h
    · rename_i new filled
      obtain ⟨rfl, size⟩ := rowContent_eq_some filled
      rw [write] at h
      split at h
      · rename_i fits
        cases h
        have place : i.toInt = n := by
          cases shape : a.shape with
          | nil => rw [rank, shape] at short; cases short
          | cons d dims => exact blockNumber_row (shape ▸ counted)
        refine ⟨rfl, rfl, size_overwrite _ _ _, fun r below => ?_⟩
        have next : (n + 1) * volume a.shape.tail = n * volume a.shape.tail + v.data.size := by rw [Nat.add_mul, Nat.one_mul, size]
        simp only [rowData]
        split
        · rename_i same
          obtain rfl : n = r := by omega
          rw [next]
          exact extract_overwrite fits
        · rename_i other
          refine extract_overwrite_of_apart fits fun k above below above' below' => other ?_
          rw [place, eq_of_common_row above (next ▸ below) above' below']
      · cases h
    · cases h

end ArrayValue

namespace ScatterKernel

/-- The row of destination `j` that the results of a thread name. -/
def target (results : List Value) (j : Nat) : Option Int := do some (← (← (← results[j]?).asScalar).asWord).toInt

/-- Thread `i` is the last one below `width` whose results name row `r` of destination `j`. -/
structure LastWriter (results : Nat → List Value) (j width r i : Nat) : Prop where
  below : i < width
  names : target (results i) j = some (r : Int)
  last : ∀ later, i < later → later < width → target (results later) j ≠ some (r : Int)

section
variable {j n m first : Nat} {dest next out : ArrayValue}

/-- One thread: it fills the row that it names. -/
theorem writeDest_eq_ok {results : List Value} (h : writeDest results n j dest = .ok next) :
    next.elem = dest.elem ∧ next.shape = dest.shape ∧ next.data.size = dest.data.size ∧ ∃ v, results[n + j]? = some v ∧
      ∀ r < dest.rows, next.rowData r = if target results j = some (r : Int) then v.data else dest.rowData r := by
  rw [writeDest] at h
  split at h
  · rename_i c v index value
    split at h
    · rename_i i word
      obtain ⟨elem, shape, size, rows⟩ := ArrayValue.writeRow_eq_ok h
      refine ⟨elem, shape, size, v, value, fun r below => ?_⟩
      have named : target results j = some i.toInt := by simp [target, index, Value.asScalar, word]
      simp only [rows r below, named, Option.some.injEq]
    · cases h
  · cases h
  · cases h

/-- All threads: a row is what the last thread that names it has written. -/
theorem iterate_writeDest {results : Nat → List Value} (h : iterate (fun i => writeDest (results i) n j) m first dest = .ok out) :
    out.elem = dest.elem ∧ out.shape = dest.shape ∧ out.data.size = dest.data.size ∧ ∀ r < dest.rows,
      (∀ i, first ≤ i → LastWriter results j (first + m) r i → ∃ v, (results i)[n + j]? = some v ∧ out.rowData r = v.data) ∧
      ((∀ i, first ≤ i → i < first + m → target (results i) j ≠ some (r : Int)) → out.rowData r = dest.rowData r) := by
  induction m generalizing first dest with
  | zero =>
    cases h
    refine ⟨rfl, rfl, rfl, fun r _ => ⟨fun i from' writer => ?_, fun _ => rfl⟩⟩
    have := writer.below
    omega
  | succ m ih =>
    obtain ⟨next, wrote, h⟩ := bind_eq_ok.mp h
    obtain ⟨elem, shape, size, v, value, row⟩ := writeDest_eq_ok wrote
    obtain ⟨elem', shape', size', rows⟩ := ih h
    have count : next.rows = dest.rows := by rw [ArrayValue.rows, shape, ArrayValue.rows]
    have stop : first + 1 + m = first + (m + 1) := by omega
    rw [stop, count] at rows
    refine ⟨elem'.trans elem, shape'.trans shape, size'.trans size, fun r below => ⟨fun i from' writer => ?_, fun none => ?_⟩⟩
    · by_cases here : i = first
      · -- no later thread names the row
        subst here
        have kept := (rows r below).2 fun later after before => writer.last later (by omega) before
        exact ⟨v, value, by rw [kept, row r below, if_pos writer.names]⟩
      · exact (rows r below).1 i (by omega) writer
    · have kept := (rows r below).2 fun later after before => none later (by omega) before
      rw [kept, row r below, if_neg (none first (Nat.le_refl _) (by omega))]

end

section
variable {op : List Value → Eval (List Value)} {arrays dests outs : List ArrayValue} {width first : Nat}

/-- What the operator returns for thread `i`. -/
def returned (op : List Value → Eval (List Value)) (arrays : List ArrayValue) (i : Nat) : Eval (List Value) := do
  op (.count i :: (← arrays.mapM (·.row i)))

/-- The results of thread `i`, if it has any. -/
def results (op : List Value → Eval (List Value)) (arrays : List ArrayValue) (i : Nat) : List Value :=
  (returned op arrays i).toOption.getD []

theorem step_eq_ok {next : List ArrayValue} {i : Nat} (h : step op arrays i dests = .ok next) :
    returned op arrays i = .ok (results op arrays i) ∧ (results op arrays i).length = 2 * dests.length ∧ next.length = dests.length ∧
      ∀ j b, next[j]? = some b → ∃ a, dests[j]? = some a ∧ writeDest (results op arrays i) dests.length j a = .ok b := by
  obtain ⟨elems, read, h⟩ := bind_eq_ok.mp h
  obtain ⟨values, applied, h⟩ := bind_eq_ok.mp h
  have gives : returned op arrays i = .ok values := bind_eq_ok.mpr ⟨elems, read, applied⟩
  have same : results op arrays i = values := by rw [results, gives]; rfl
  rw [same]
  split at h
  · rename_i count
    obtain ⟨length, each⟩ := mapM_zipIdx h
    exact ⟨gives, count, length, each⟩
  · cases h

/-- The destinations are filled side by side. -/
theorem iterate_step (h : iterate (step op arrays) width first dests = .ok outs) :
    outs.length = dests.length ∧
      (∀ i, first ≤ i → i < first + width →
        returned op arrays i = .ok (results op arrays i) ∧ (results op arrays i).length = 2 * dests.length) ∧
      ∀ j out, outs[j]? = some out → ∃ dest, dests[j]? = some dest ∧
        iterate (fun i => writeDest (results op arrays i) dests.length j) width first dest = .ok out := by
  induction width generalizing first dests with
  | zero =>
    cases h
    exact ⟨rfl, fun i from' below => absurd below (by omega), fun j out there => ⟨out, there, rfl⟩⟩
  | succ width ih =>
    obtain ⟨next, stepped, h⟩ := bind_eq_ok.mp h
    obtain ⟨gives, count, length, each⟩ := step_eq_ok stepped
    obtain ⟨length', later, run⟩ := ih h
    rw [length] at length' later run
    refine ⟨length', fun i from' below => ?_, fun j out there => ?_⟩
    · by_cases here : i = first
      · exact here ▸ ⟨gives, count⟩
      · exact later i (by omega) (by omega)
    · obtain ⟨between, found, ran⟩ := run j out there
      obtain ⟨dest, given, wrote⟩ := each j between found
      exact ⟨dest, given, bind_eq_ok.mpr ⟨between, wrote, ran⟩⟩

end

/-- A scatter is last-writer-wins and touches nothing else. Each destination is filled on its own, from what the operator returned
for it, and a row of it holds the value of the last thread that named the row, or what it held if there is no such thread. -/
theorem eval_scatter_rows {k : ScatterKernel} {env : Env} {outs : List Value} (evaluates : (Kernel.scatter k).eval env = .ok outs) :
    ∃ (width : Nat) (arrays dests : List ArrayValue) (results : Nat → List Value), env.size k.width = .ok width ∧
      k.arrays.mapM env.array = .ok arrays ∧ k.dests.mapM (fun d => env.array d.2) = .ok dests ∧
      (∀ i < width, ∃ elems, arrays.mapM (·.row i) = .ok elems ∧ k.op.eval env (.count i :: elems) = .ok (results i) ∧
        (results i).length = 2 * dests.length) ∧
      outs.length = dests.length ∧
      ∀ j dest, dests[j]? = some dest → dest.Regular →
        ∃ out, outs[j]? = some (.array out) ∧ out.elem = dest.elem ∧ out.shape = dest.shape ∧ out.Regular ∧
          iterate (fun i => writeDest (results i) dests.length j) width 0 dest = .ok out ∧
          ∀ r < dest.rows,
            (∀ i, LastWriter results j width r i → ∃ v, (results i)[dests.length + j]? = some v ∧ out.rowData r = v.data) ∧
            ((∀ i < width, target (results i) j ≠ some (r : Int)) → out.rowData r = dest.rowData r) := by
  obtain ⟨certs, w, op, sources, sinks⟩ := k
  obtain ⟨width, sized, evaluates⟩ := bind_eq_ok.mp evaluates
  obtain ⟨arrays, read, evaluates⟩ := bind_eq_ok.mp evaluates
  obtain ⟨dests, found, evaluates⟩ := bind_eq_ok.mp evaluates
  obtain ⟨filled, ran, made⟩ := bind_eq_ok.mp evaluates
  cases made
  obtain ⟨count, threads, run⟩ := iterate_step ran
  refine ⟨width, arrays, dests, results (fun args => op.eval env args) arrays, sized, read, found, fun i below => ?_, ?_,
    fun j dest given regular => ?_⟩
  · obtain ⟨gives, length⟩ := threads i (Nat.zero_le i) (by omega)
    obtain ⟨elems, read, applied⟩ := bind_eq_ok.mp gives
    exact ⟨elems, read, applied, length⟩
  · rw [List.length_map, count]
  · obtain ⟨below, _⟩ := List.getElem?_eq_some_iff.mp given
    have there : filled[j]? = some filled[j] := List.getElem?_eq_getElem (count ▸ below)
    obtain ⟨_, same, alone⟩ := run j _ there
    cases given.symm.trans same
    obtain ⟨elem, shape, size, rows⟩ := iterate_writeDest alone
    refine ⟨filled[j], by rw [List.getElem?_map, there]; rfl, elem, shape, ?_, alone, fun r below => ?_⟩
    · rw [ArrayValue.Regular, size, shape]
      exact regular
    · rw [Nat.zero_add] at rows
      obtain ⟨written, kept⟩ := rows r below
      exact ⟨fun i writer => written i (Nat.zero_le i) writer, fun none => kept fun i _ => none i⟩

end ScatterKernel

/-- Five threads write to a line of three elements and to two rows of one element, at places that they read. -/
def sampleScatter : ScatterKernel :=
  let scalar (v : Name) : Binder := ⟨v, .scalar .i64, none⟩
  let t : Name := ⟨"t", 5⟩
  let p : Name := ⟨"p", 6⟩
  let q : Name := ⟨"q", 7⟩
  let x : Name := ⟨"x", 8⟩
  ⟨[], .const (.i64 5), ⟨[t, p, q, x].map scalar, ⟨[], [.var p, .var q, .var x, .var t]⟩, List.replicate 4 (.scalar .i64)⟩,
    [⟨"ps", 0⟩, ⟨"qs", 1⟩, ⟨"xs", 2⟩], [(.const (.i64 3), ⟨"line", 3⟩), (.const (.i64 2), ⟨"rows", 4⟩)]⟩

def sampleScatterEnv : Env :=
  ⟨[(⟨"ps", 0⟩, .words [1, -1, 1, 7, 0]), (⟨"qs", 1⟩, .words [0, 0, 2, -5, 0]), (⟨"xs", 2⟩, .words [10, 11, 12, 13, 14]),
    (⟨"line", 3⟩, .words [100, 101, 102]), (⟨"rows", 4⟩, .array ⟨.i64, [2, 1], #[.i64 200, .i64 201]⟩)]⟩

/-- The second element of the line is written twice, the third is left, and so are the places outside. -/
theorem sampleScatter_rows : ∃ outs results line, (Kernel.scatter sampleScatter).eval sampleScatterEnv = .ok outs ∧
    outs[0]? = some (.array line) ∧ ScatterKernel.LastWriter results 0 5 1 2 ∧ line.rowData 1 = #[.i64 12] ∧
    line.rowData 2 = #[.i64 102] := by
  have whole : ((Kernel.scatter sampleScatter).eval sampleScatterEnv).toOption.any
      (fun outs => outs.length = 2) = true := by decide +kernel
  obtain ⟨outs, evaluates, _⟩ := exists_of_any whole
  obtain ⟨width, arrays, dests, results, sized, read, found, threads, _, each⟩ := ScatterKernel.eval_scatter_rows evaluates
  cases sized
  cases read
  cases found
  have gives (i : Nat) (below : i < 5) : results i = [.word (([1, -1, 1, 7, 0] : List Int64).getD i 0),
      .word (([0, 0, 2, -5, 0] : List Int64).getD i 0), .word (([10, 11, 12, 13, 14] : List Int64).getD i 0), .count i] := by
    obtain ⟨elems, rows, applied, _⟩ := threads i below
    obtain rfl | rfl | rfl | rfl | rfl : i = 0 ∨ i = 1 ∨ i = 2 ∨ i = 3 ∨ i = 4 := by omega
    all_goals
      cases rows
      exact (Except.ok.inj applied).symm
  have named (i : Nat) (below : i < 5) : ScatterKernel.target (results i) 0 = some (([1, -1, 1, 7, 0] : List Int64).getD i 0).toInt := by
    rw [gives i below]
    rfl
  have writer : ScatterKernel.LastWriter results 0 5 1 2 := by
    refine ⟨by decide, named 2 (by decide), fun later after below => ?_⟩
    rw [named later below]
    obtain rfl | rfl : later = 3 ∨ later = 4 := by omega
    all_goals decide
  obtain ⟨line, there, _, _, _, _, rows⟩ := each 0 _ rfl rfl
  obtain ⟨v, value, written⟩ := (rows 1 (by decide)).1 2 writer
  rw [gives 2 (by decide)] at value
  cases value
  refine ⟨outs, results, line, evaluates, there, writer, written, (rows 2 (by decide)).2 fun i (below : i < 5) => ?_⟩
  rw [named i below]
  obtain rfl | rfl | rfl | rfl | rfl : i = 0 ∨ i = 1 ∨ i = 2 ∨ i = 3 ∨ i = 4 := by omega
  all_goals decide

end ArrayKernels
