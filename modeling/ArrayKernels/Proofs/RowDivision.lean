import ArrayKernels.Proofs.RowStacks
import Mathlib.Data.List.Nodup

/-! Dividing rows between threads. If the threads have room for all rows, then each row is in the chunk of just one thread, in either
division. Chunks that are put together again give each row its place, so that neither the division nor the number of threads shows in
the result of work on single rows. -/
namespace ArrayKernels

namespace Division

/-- The thread that has a row. -/
def owner (division : Division) (threads perThread i : Nat) : Nat :=
  match division with
  | .contiguous => i / perThread
  | .strided => i % threads

section
variable {division : Division} {threads perThread width t i : Nat}

theorem mem_rows_contiguous : i ∈ rows .contiguous t threads perThread width ↔ i < width ∧ t * perThread ≤ i ∧ i < t * perThread + perThread := by
  simp only [rows, List.mem_range'_1]
  omega

theorem mem_rows_strided (below : t < threads) : i ∈ rows .strided t threads perThread width ↔ i < width ∧ i % threads = t := by
  have some : 0 < threads := Nat.zero_lt_of_lt below
  simp only [rows, List.mem_range', Nat.max_eq_left some]
  constructor
  · rintro ⟨k, counted, rfl⟩
    rw [Nat.lt_iff_add_one_le, Nat.le_div_iff_mul_le some, Nat.add_mul, Nat.one_mul, Nat.mul_comm] at counted
    rw [Nat.add_mul_mod_self_left, Nat.mod_eq_of_lt below]
    omega
  · rintro ⟨inside, rfl⟩
    have whole := Nat.mod_add_div i threads
    refine ⟨i / threads, ?_, whole.symm⟩
    rw [Nat.lt_iff_add_one_le, Nat.le_div_iff_mul_le some, Nat.add_mul, Nat.one_mul, Nat.mul_comm]
    omega

variable (enough : width ≤ threads * perThread)
include enough

theorem mem_rows (below : t < threads) :
    i ∈ division.rows t threads perThread width ↔ i < width ∧ division.owner threads perThread i = t := by
  cases division with
  | contiguous =>
    rw [mem_rows_contiguous, owner]
    apply and_congr_right
    intro inside
    have room : 0 < perThread := by
      apply Nat.pos_of_ne_zero
      rintro rfl
      omega
    rw [Nat.div_eq_iff room]
    omega
  | strided => exact mem_rows_strided below

theorem owner_lt (inside : i < width) : division.owner threads perThread i < threads := by
  have room : i < threads * perThread := Nat.lt_of_lt_of_le inside enough
  cases division with
  | contiguous => exact Nat.div_lt_of_lt_mul (by rwa [Nat.mul_comm])
  | strided => exact Nat.mod_lt i (Nat.pos_of_mul_pos_right (Nat.zero_lt_of_lt room))

theorem length_rows_le_perThread (some : 0 < threads) : (division.rows t threads perThread width).length ≤ perThread := by
  cases division with
  | contiguous =>
    rw [rows, List.length_range']
    omega
  | strided =>
    rw [rows, List.length_range', Nat.max_eq_left some]
    apply Nat.le_of_lt_succ
    rw [Nat.div_lt_iff_lt_mul some, Nat.succ_mul, Nat.mul_comm]
    omega

omit enough

theorem nodup_rows : (division.rows t threads perThread width).Nodup := by
  cases division with
  | contiguous => exact List.nodup_range'
  | strided => exact List.nodup_range' _ (Nat.lt_of_lt_of_le Nat.one_pos (Nat.le_max_right ..))

end

end Division

/-! Chunks put together -/

section
variable {row : Nat → Value} {done : Nat → Prop} {slots : Array (Option Value)} {elem : ScalarType} {rowShape : List Nat} {width : Nat}

/-- The slots of some numbers hold their rows. -/
def Filled (row : Nat → Value) (done : Nat → Prop) (slots : Array (Option Value)) : Prop :=
  ∀ i, done i → i < slots.size → slots[i]? = some (some (row i))

theorem Filled.set (h : Filled row done slots) (n : Nat) :
    Filled row (fun i => i = n ∨ done i) (slots.setIfInBounds n (some (row n))) := by
  intro i filled below
  rw [Array.size_setIfInBounds] at below
  rw [Array.getElem?_setIfInBounds]
  by_cases here : n = i
  · rw [if_pos here, if_pos (here ▸ below), here]
  · rw [if_neg here]
    exact h i (filled.resolve_left (Ne.symm here)) below

theorem fillSlots_fills {chunk : ArrayValue} {numbers : List Nat} (h : Filled row done slots) (k : Nat)
    (reads : ∀ j i, numbers[j]? = some i → chunk.row (k + j) = .ok (row i)) :
    ∃ slots', (numbers.zipIdx k).foldlM
        (fun slots nj => do .ok (slots.setIfInBounds nj.1 (some (← chunk.row nj.2)))) slots = (.ok slots' : Eval _) ∧
      slots'.size = slots.size ∧ Filled row (fun i => i ∈ numbers ∨ done i) slots' := by
  induction numbers generalizing k slots done with
  | nil => exact ⟨slots, rfl, rfl, fun i filled below => h i (filled.resolve_left List.not_mem_nil) below⟩
  | cons n numbers ih =>
    have first := reads 0 n rfl
    obtain ⟨slots', ran, size, filled⟩ := ih (h.set n) (k + 1) fun j i there => by
      rw [Nat.add_assoc, Nat.add_comm 1 j]
      exact reads (j + 1) i there
    refine ⟨slots', ?_, ?_, fun i mem below => filled i ?_ below⟩
    · rw [List.zipIdx_cons, List.foldlM_cons]
      simp only [Nat.add_zero] at first
      rw [first]
      exact ran
    · rw [size, Array.size_setIfInBounds]
    · rcases mem with listed | earlier
      · rcases List.mem_cons.mp listed with here | later
        · exact .inr (.inl here)
        · exact .inl later
      · exact .inr (.inr earlier)

/-- A chunk fills the slots of its numbers. -/
theorem addChunk_fills {numbers : List Nat} {chunk : ArrayValue} (h : Filled row done slots)
    (stacked : chunk.Stacks elem rowShape (numbers.map row)) :
    ∃ slots', addChunk slots (numbers, .array chunk) = .ok slots' ∧ slots'.size = slots.size ∧
      Filled row (fun i => i ∈ numbers ∨ done i) slots' := by
  have count : chunk.rows = numbers.length := by rw [stacked.rows_eq, List.length_map]
  have reads : ∀ j i, numbers[j]? = some i → chunk.row (0 + j) = .ok (row i) := by
    intro j i there
    rw [Nat.zero_add]
    apply stacked.row
    rw [List.getElem?_map, there, Option.map_some]
  obtain ⟨slots', ran, rest⟩ := fillSlots_fills h 0 reads
  refine ⟨slots', ?_, rest⟩
  exact (if_pos count).trans ran

theorem addChunks_fill {chunks : List (List Nat × Value)} (h : Filled row done slots)
    (each : ∀ c ∈ chunks, ∃ chunk, c.2 = .array chunk ∧ chunk.Stacks elem rowShape (c.1.map row)) :
    ∃ slots', chunks.foldlM addChunk slots = .ok slots' ∧ slots'.size = slots.size ∧
      Filled row (fun i => (∃ c ∈ chunks, i ∈ c.1) ∨ done i) slots' := by
  induction chunks generalizing slots done with
  | nil => exact ⟨slots, rfl, rfl, fun i filled below => h i (filled.resolve_left (by simp)) below⟩
  | cons c chunks ih =>
    obtain ⟨⟨chunk, made, stacked⟩, others⟩ := List.forall_mem_cons.mp each
    obtain ⟨numbers, value⟩ := c
    cases made
    obtain ⟨between, first, size, filled⟩ := addChunk_fills h stacked
    obtain ⟨slots', ran, size', filled'⟩ := ih filled others
    refine ⟨slots', ?_, size'.trans size, fun i mem below => filled' i ?_ below⟩
    · rw [List.foldlM_cons, first, ok_bind, ran]
    · rcases mem with ⟨c, among, listed⟩ | earlier
      · rcases List.mem_cons.mp among with rfl | later
        · exact .inr (.inl listed)
        · exact .inl ⟨c, later, listed⟩
      · exact .inr (.inr earlier)

/-- If each row is in one of the chunks, then all of them together are the array of the rows. -/
theorem joinChunks_eq_ok {chunks : List (List Nat × Value)} {b : ArrayValue}
    (each : ∀ c ∈ chunks, ∃ chunk, c.2 = .array chunk ∧ chunk.Stacks elem rowShape (c.1.map row))
    (all : ∀ i < width, ∃ c ∈ chunks, i ∈ c.1) (stacked : ArrayValue.ofRows elem rowShape ((List.range width).map row) = .ok b) :
    joinChunks elem rowShape width chunks = .ok (.array b) := by
  have start : Filled row (fun _ => False) (Array.replicate width none) := fun i never => never.elim
  obtain ⟨slots, ran, size, filled⟩ := addChunks_fill start each
  rw [Array.size_replicate] at size
  refine bind_eq_ok.mpr ⟨slots, ran, bind_eq_ok.mpr ⟨(List.range width).map row, ?_, bind_eq_ok.mpr ⟨b, stacked, rfl⟩⟩⟩
  rw [mapM_eq_ok, List.forall₂_iff_get]
  refine ⟨by simp [size], fun i _ below => ?_⟩
  have inside : i < width := by simpa using below
  have here := filled i (.inl (all i inside)) (size ▸ inside)
  rw [Array.getElem?_eq_getElem (size ▸ inside), Option.some.injEq] at here
  simp only [List.get_eq_getElem, List.getElem_zipIdx, Array.getElem_toList, List.getElem_map, List.getElem_range, here]

end

/-! Work on single rows -/

/-- Divides the rows of an array, applies a function to each row of each chunk, and puts the chunks together again. -/
def mapChunks (division : Division) (threads perThread : Nat) (elem : ScalarType) (rowShape : List Nat) (g : Value → Value)
    (a : ArrayValue) : Eval Value := do
  let chunks ← (List.range threads).mapM fun t => do
    let numbers := division.rows t threads perThread a.rows
    let chunk ← a.takeRows numbers
    .ok (numbers, Value.array (← chunk.mapRows elem rowShape g))
  joinChunks elem rowShape a.rows chunks

section
variable {a : ArrayValue} {elem elem' : ScalarType} {dims rowShape : List Nat} {width : Nat} {row : Nat → Value} {g : Value → Value}
  (stacked : a.Stacks elem' dims ((List.range width).map row)) (kept : ∀ i < width, (g (row i)).IsRow elem rowShape)
include stacked kept

/-- A chunk with the function applied to each of its rows. -/
theorem takeRows_mapRows {numbers : List Nat} (within : ∀ i ∈ numbers, i < width) :
    ∃ chunk part, a.takeRows numbers = .ok chunk ∧ chunk.mapRows elem rowShape g = .ok part ∧
      part.Stacks elem rowShape (numbers.map fun i => g (row i)) := by
  obtain ⟨chunk, taken, chosen⟩ := stacked.takeRows within
  have rows : ∀ x ∈ (numbers.map row).map g, x.IsRow elem rowShape := by
    simp only [List.map_map, List.forall_mem_map]
    exact fun i mem => kept i (within i mem)
  obtain ⟨part, made, parts⟩ := ArrayValue.ofRows_stacks rows
  rw [List.map_map] at parts
  exact ⟨chunk, part, taken, (chosen.mapRows_eq elem rowShape g).trans made, parts⟩

/-- Whatever the division and the number of threads, the chunks give the rows of the whole. -/
theorem mapChunks_eq_ok (division : Division) {threads perThread : Nat} (enough : width ≤ threads * perThread) {b : ArrayValue}
    (made : a.mapRows elem rowShape g = .ok b) : mapChunks division threads perThread elem rowShape g a = .ok (.array b) := by
  have count : a.rows = width := by rw [stacked.rows_eq, List.length_map, List.length_range]
  rw [stacked.mapRows_eq, List.map_map] at made
  have thread (t : Nat) (mem : t ∈ List.range threads) : ∃ c : List Nat × Value, c.1 = division.rows t threads perThread width ∧
      (do
        let chunk ← a.takeRows (division.rows t threads perThread width)
        .ok (division.rows t threads perThread width, Value.array (← chunk.mapRows elem rowShape g)) : Eval _) = .ok c ∧
      ∃ part, c.2 = .array part ∧ part.Stacks elem rowShape (c.1.map fun i => g (row i)) := by
    have below := List.mem_range.mp mem
    obtain ⟨chunk, part, taken, mapped, parts⟩ := takeRows_mapRows stacked kept
      fun i mem => ((Division.mem_rows enough below).mp mem).1
    refine ⟨(division.rows t threads perThread width, .array part), rfl, ?_, part, rfl, parts⟩
    rw [taken, ok_bind, mapped, ok_bind]
  obtain ⟨chunks, each⟩ := ArrayValue.exists_forall₂ thread
  have ran := mapM_eq_ok.mpr (each.imp fun t c h => h.2.1)
  rw [mapChunks, count, ran, ok_bind]
  apply joinChunks_eq_ok _ _ made
  · intro c mem
    obtain ⟨t, _, _, _, part⟩ := exists_of_mem_right each mem
    exact part
  · intro i inside
    have owned : division.owner threads perThread i < threads := Division.owner_lt enough inside
    obtain ⟨c, among, numbers, _⟩ := exists_of_mem_right each.flip (List.mem_range.mpr owned)
    refine ⟨c, among, ?_⟩
    rw [numbers]
    exact (Division.mem_rows enough owned).mpr ⟨inside, rfl⟩

end

/-- Three pairs. -/
def samplePairs : ArrayValue := ⟨.i64, [3, 2], #[.i64 0, .i64 1, .i64 2, .i64 3, .i64 4, .i64 5]⟩

/-- The first element of an array, as a row without dimensions. -/
def firstElement : Value → Value
  | .array a => .scalar (a.data.getD 0 (.i64 0))
  | x => .scalar (x.asScalar.getD (.i64 0))

end ArrayKernels
