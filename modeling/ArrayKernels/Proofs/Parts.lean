import ArrayKernels.Proofs.Run

/-! Parts of arrays. A part of a part is a part of the whole, a part of copies is made of copies, and the elements of an iota
are computed from their positions. -/
namespace ArrayKernels

namespace ArrayValue

variable {a b : ArrayValue} {is js : List Int64} {dims : List Nat} {n : Nat} {x : Value}

theorem blockNumber_append (n : Nat) (short : is.length ≤ dims.length) :
    blockNumber n (is ++ js) dims = blockNumber n is dims >>= fun m => blockNumber m js (dims.drop is.length) := by
  induction is generalizing n dims with
  | nil => cases dims <;> rfl
  | cons i is ih =>
    cases dims with
    | nil => cases short
    | cons d dims =>
      rw [List.cons_append, blockNumber, blockNumber]
      split
      · rfl
      · exact ih _ (Nat.le_of_succ_le_succ short)

/-- Counting from a later block. -/
theorem blockNumber_add {m : Nat} (more : Nat) (short : is.length ≤ dims.length) (h : blockNumber n is dims = .ok m) :
    blockNumber (n + more) is dims = .ok (m + more * volume (dims.take is.length)) := by
  induction is generalizing n dims more with
  | nil =>
    have same : n = m := by
      cases dims <;> exact Except.ok.inj h
    subst same
    cases dims <;> simp [blockNumber, volume]
  | cons i is ih =>
    cases dims with
    | nil => cases short
    | cons d dims =>
      rw [blockNumber] at h ⊢
      split at h
      · cases h
      · rename_i inside
        rw [if_neg inside]
        have rest := ih (more * d) (Nat.le_of_succ_le_succ short) h
        rw [show (n + more) * d + i.toInt.toNat = n * d + i.toInt.toNat + more * d by rw [Nat.add_mul]; omega, rest]
        simp [volume, Nat.mul_assoc]

theorem part_eq_array {elem : ScalarType} {shape : List Nat} {data : Array Scalar} (h : part elem shape data = .ok (.array b)) :
    shape ≠ [] ∧ b = ⟨elem, shape, data⟩ := by
  cases shape with
  | nil =>
    cases first : data[0]? with
    | none => simp [part, first] at h
    | some c => simp [part, first] at h
  | cons d dims =>
    cases h
    exact ⟨List.cons_ne_nil _ _, rfl⟩

theorem part_of_ne_nil {elem : ScalarType} {shape : List Nat} (data : Array Scalar) (some : shape ≠ []) :
    part elem shape data = .ok (.array ⟨elem, shape, data⟩) := by
  cases shape with
  | nil => exact absurd rfl some
  | cons d dims => rfl

/-- The number of elements of the part at as many indices. -/
def partSize (a : ArrayValue) (k : Nat) : Nat := volume (a.shape.drop k)

theorem index_eq_ok : a.index is = .ok x ↔ is.length ≤ a.rank ∧ ∃ n, blockNumber 0 is a.shape = .ok n ∧
    (n + 1) * a.partSize is.length ≤ a.data.size ∧
    part a.elem (a.shape.drop is.length) (a.data.extract (n * a.partSize is.length) ((n + 1) * a.partSize is.length)) = .ok x := by
  rw [index, blockAt]
  by_cases long : a.rank < is.length
  · rw [if_pos long, error_bind]
    refine ⟨fun h => ?_, fun h => absurd h.1 (Nat.not_le.mpr long)⟩
    cases h
  · rw [if_neg long]
    simp only [bind_eq_ok, Except.ok.injEq, cells, Nat.add_mul, Nat.one_mul, partSize]
    constructor
    · rintro ⟨_, ⟨n, counted, rfl⟩, _, cut, h⟩
      split at cut
      · cases cut
        exact ⟨by omega, n, counted, ‹_›, h⟩
      · cases cut
    · rintro ⟨_, n, counted, fits, h⟩
      exact ⟨_, ⟨n, counted, rfl⟩, _, if_pos fits, h⟩

/-- A part of a part is a part of the whole. -/
theorem index_index (outer : a.index is = .ok (.array b)) (inner : b.index js = .ok x) : a.index (is ++ js) = .ok x := by
  obtain ⟨short, n, counted, fits, cut⟩ := index_eq_ok.mp outer
  obtain ⟨some, rfl⟩ := part_eq_array cut
  obtain ⟨short', m, counted', fits', cut'⟩ := index_eq_ok.mp inner
  simp only [partSize, rank, List.length_drop, List.drop_drop, Array.size_extract] at short short' fits fits' cut'
  have whole : volume (a.shape.drop is.length) =
      volume ((a.shape.drop is.length).take js.length) * volume (a.shape.drop (is.length + js.length)) := by
    rw [← volume_append, ← List.drop_drop, List.take_append_drop]
  have number := blockNumber_add n (by rw [List.length_drop]; omega) counted'
  rw [Nat.zero_add] at number
  generalize volume ((a.shape.drop is.length).take js.length) = blocks at whole number
  generalize size : volume (a.shape.drop (is.length + js.length)) = len at *
  generalize volume (a.shape.drop is.length) = area at whole fits fits' cut'
  have start (k : Nat) : (k + n * blocks) * len = n * area + k * len := by
    rw [whole, Nat.add_mul, Nat.mul_assoc, Nat.add_comm]
  have next : (m + n * blocks + 1) * len = n * area + (m + 1) * len := by rw [← start, Nat.add_right_comm]
  rw [Nat.add_mul n 1, Nat.one_mul] at fits fits' cut'
  refine index_eq_ok.mpr ⟨by rw [List.length_append, rank]; omega, m + n * blocks, ?_, ?_, ?_⟩
  · rw [blockNumber_append 0 short, counted, ok_bind, number]
  · rw [partSize, List.length_append, size, next]
    omega
  · rw [partSize, List.length_append, size, next, start, ← cut', Array.extract_extract, Nat.min_eq_left (by omega)]

/-! Copies -/

theorem getElem_copies {n : Nat} {data : Array Scalar} {i : Nat} (below : i < (copies n data).size)
    (inside : i % data.size < data.size) : (copies n data)[i] = data[i % data.size] := by
  simp only [copies, Array.getElem_ofFn]

/-- A stretch of copies is made of copies. -/
theorem extract_copies {n : Nat} {data : Array Scalar} (first count : Nat) (fits : (first + count) * data.size ≤ n * data.size) :
    (copies n data).extract (first * data.size) ((first + count) * data.size) = copies count data := by
  have total : (first + count) * data.size = first * data.size + count * data.size := Nat.add_mul _ _ _
  refine Array.ext ?_ fun i below below' => ?_
  · rw [Array.size_extract, size_copies, size_copies]
    omega
  · rw [size_copies] at below'
    have inside : i % data.size < data.size := Nat.mod_lt _ (Nat.pos_of_ne_zero fun none => by simp [none] at below')
    have shifted : (first * data.size + i) % data.size = i % data.size := by
      rw [Nat.add_comm, Nat.add_mul_mod_self_right]
    rw [Array.getElem_extract, getElem_copies _ (shifted ▸ inside), getElem_copies _ inside]
    simp only [shifted]

theorem copies_one (data : Array Scalar) : copies 1 data = data := by
  refine Array.ext (by rw [size_copies, Nat.one_mul]) fun i _ below => ?_
  have inside : i % data.size < data.size := by rwa [Nat.mod_eq_of_lt below]
  rw [getElem_copies _ inside]
  simp only [Nat.mod_eq_of_lt below]

theorem copies_singleton (n : Nat) (c : Scalar) : copies n #[c] = Array.replicate n c := by
  refine Array.ext (by rw [size_copies, Array.size_replicate]; simp) fun i _ _ => ?_
  rw [getElem_copies _ (Nat.mod_lt _ (by simp)), Array.getElem_replicate]
  simp

/-- Copies one after another. -/
theorem flatten_replicate (n : Nat) (data : Array Scalar) : (List.replicate n data).toArray.flatten = copies n data := by
  induction n with
  | zero => exact (Array.eq_empty_of_size_eq_zero (by rw [size_copies, Nat.zero_mul])).symm
  | succ n ih =>
    have first := @extract_copies (n + 1) data 0 1 (Nat.mul_le_mul_right _ (by omega))
    have rest := @extract_copies (n + 1) data 1 n (Nat.mul_le_mul_right _ (by omega))
    have whole : copies (n + 1) data = copies 1 data ++ copies n data := by
      rw [← first, ← rest, Nat.zero_add, Nat.zero_mul, Array.extract_append_extract, Nat.zero_min, Nat.add_comm 1 n,
        Nat.max_eq_right (Nat.mul_le_mul_right _ (by omega)), ← size_copies, Array.extract_size]
    rw [whole, copies_one, ← ih, List.replicate_succ]
    simp

/-- The element type and the elements of a value that can be copied. -/
theorem replicate_eq_ok {outer : List Nat} (sturdy : x.isSturdy = true) (h : replicate outer x = .ok a) :
    ∃ elem data, data.size = volume x.shape ∧ part elem x.shape data = .ok x ∧
      a = ⟨elem, outer ++ x.shape, copies (volume outer) data⟩ ∧
      ∀ dims, replicate dims x = .ok ⟨elem, dims ++ x.shape, copies (volume dims) data⟩ := by
  cases x with
  | scalar c =>
    cases h
    have flat : (Value.scalar c).shape = [] := rfl
    refine ⟨c.type, #[c], rfl, rfl, ?_, fun dims => ?_⟩
    · rw [flat, List.append_nil, copies_singleton]
    · rw [flat, List.append_nil, copies_singleton]
      rfl
  | array b =>
    cases h
    rw [Value.isSturdy, Bool.and_eq_true, beq_iff_eq, bne_iff_ne] at sturdy
    exact ⟨b.elem, b.data, sturdy.1, part_of_ne_nil _ sturdy.2, rfl, fun _ => rfl⟩
  | mem size space => cases h

/-- A part of copies is the value that was copied, or made of fewer copies. -/
theorem index_replicate {outer : List Nat} {y : Value} (sturdy : x.isSturdy = true) (copied : replicate outer x = .ok a)
    (h : a.index is = .ok y) (short : is.length ≤ outer.length) :
    is.length = outer.length ∧ y = x ∨
      is.length < outer.length ∧ ∃ b, replicate (outer.drop is.length) x = .ok b ∧ y = .array b := by
  obtain ⟨elem, data, size, whole, rfl, again⟩ := replicate_eq_ok sturdy copied
  obtain ⟨_, n, _, fits, cut⟩ := index_eq_ok.mp h
  rw [partSize, List.drop_append_of_le_length short, volume_append, ← size] at fits cut
  rw [← Nat.mul_assoc, ← Nat.mul_assoc, Nat.add_mul n 1, Nat.one_mul] at cut
  rw [← Nat.mul_assoc, Nat.add_mul n 1, Nat.one_mul, size_copies] at fits
  rw [extract_copies _ _ fits] at cut
  by_cases full : is.length = outer.length
  · refine .inl ⟨full, ?_⟩
    rw [full, List.drop_length, volume, copies_one, List.nil_append, whole] at cut
    exact (Except.ok.inj cut).symm
  · have some : outer.drop is.length ++ x.shape ≠ [] := by
      intro none
      have := congrArg List.length (List.append_eq_nil_iff.mp none).1
      simp only [List.length_drop, List.length_nil] at this
      omega
    refine .inr ⟨by omega, _, again _, ?_⟩
    rw [part_of_ne_nil _ some] at cut
    exact (Except.ok.inj cut).symm

end ArrayValue

/-! Iotas -/

section
variable {ns : List Int64} {i : Nat} {x : Value}

/-- The array of a list of words. -/
def wordArray (ns : List Int64) : ArrayValue := ⟨.i64, [ns.length], (ns.map .i64).toArray⟩

theorem Value.words_eq (ns : List Int64) : Value.words ns = .array (wordArray ns) := rfl

namespace wordArray

theorem eq_of_cells {data : Array Scalar} (h : (wordArray ns).cells i 1 = .ok data) : ∃ n, ns[i]? = some n ∧ data = #[.i64 n] := by
  rw [ArrayValue.cells] at h
  split at h
  · rename_i fits
    have below : i < ns.length := by
      simp only [wordArray, List.size_toArray, List.length_map] at fits
      omega
    cases h
    refine ⟨ns[i], List.getElem?_eq_getElem below, Array.ext ?_ fun j _ first => ?_⟩
    · rw [Array.size_extract, Nat.min_eq_left fits]
      simp
    · obtain rfl : j = 0 := by simpa using first
      simp [wordArray]
  · cases h

theorem eq_of_index {i : Int64} (h : (wordArray ns).index [i] = .ok x) : ¬i < 0 ∧ ∃ n, ns[i.toInt.toNat]? = some n ∧ x = .word n := by
  obtain ⟨block, found, h⟩ := bind_eq_ok.mp h
  obtain ⟨data, cut, h⟩ := bind_eq_ok.mp h
  obtain ⟨number, counted, made⟩ := bind_eq_ok.mp ((if_neg (by simp [wordArray, ArrayValue.rank])).symm.trans found)
  cases made
  rw [wordArray, ArrayValue.blockNumber] at counted
  split at counted
  · cases counted
  · rename_i inside
    cases counted
    have cut : (wordArray ns).cells i.toInt.toNat 1 = .ok data := by simpa [wordArray, volume] using cut
    obtain ⟨n, there, rfl⟩ := eq_of_cells cut
    exact ⟨fun negative => inside (.inl negative), n, there, (Except.ok.inj h).symm⟩

theorem eq_of_row (h : (wordArray ns).row i = .ok x) : ∃ n, ns[i]? = some n ∧ x = .word n := by
  obtain ⟨data, cut, h⟩ := bind_eq_ok.mp h
  rw [volume, Nat.mul_one] at cut
  obtain ⟨n, there, rfl⟩ := eq_of_cells cut
  exact ⟨n, there, (Except.ok.inj h).symm⟩

theorem eq_of_takeRows {numbers : List Nat} {b : ArrayValue} (h : (wordArray ns).takeRows numbers = .ok b) :
    ∃ ms, List.Forall₂ (fun i n => ns[i]? = some n) numbers ms ∧ b = wordArray ms := by
  obtain ⟨data, cut, h⟩ := bind_eq_ok.mp h
  cases h
  suffices made : ∃ ms, List.Forall₂ (fun i n => ns[i]? = some n) numbers ms ∧ data.toArray.flatten = (ms.map Scalar.i64).toArray by
    obtain ⟨ms, there, flat⟩ := made
    refine ⟨ms, there, ?_⟩
    rw [flat, there.length_eq]
    rfl
  have each := mapM_eq_ok.mp cut
  clear cut h
  induction each with
  | nil => exact ⟨[], .nil, rfl⟩
  | cons first _ ih =>
    rw [volume, Nat.mul_one] at first
    obtain ⟨n, there, rfl⟩ := eq_of_cells first
    obtain ⟨ms, others, flat⟩ := ih
    refine ⟨n :: ms, .cons there others, ?_⟩
    simpa using flat

end wordArray

theorem iotaValues_getElem? {count : Nat} {start stride n : Int64} (h : (iotaValues count start stride)[i]? = some n) :
    n = start + .ofNat i * stride := by
  rw [iotaValues, List.getElem?_map] at h
  obtain ⟨j, there, rfl⟩ := Option.map_eq_some_iff.mp h
  obtain ⟨_, rfl⟩ := List.getElem?_eq_some_iff.mp there
  rw [List.getElem_range]

end

end ArrayKernels
