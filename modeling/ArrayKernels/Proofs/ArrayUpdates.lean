import ArrayKernels.Proofs.RowMajor

/-! Reading after writing. An index list names a stretch of the elements of an array. Replacing a stretch changes what is read there
and nothing that is read elsewhere, since the stretches of two index lists meet only if one of the lists extends the other. -/
namespace ArrayKernels

namespace ArrayValue

/-! Replaced stretches -/

section
variable {data new : Array Scalar} {start first last i : Nat}

theorem getElem?_overwrite {new : List Scalar} (fits : start + new.length ≤ data.size) :
    (overwrite data start new)[i]? = if start ≤ i ∧ i < start + new.length then new[i - start]? else data[i]? := by
  induction new generalizing data start with
  | nil =>
    rw [overwrite, if_neg]
    simp only [List.length_nil]
    omega
  | cons c new ih =>
    rw [List.length_cons] at fits
    rw [overwrite, ih (by rw [Array.size_setIfInBounds]; omega), Array.getElem?_setIfInBounds, List.length_cons]
    by_cases here : start = i
    · rw [if_neg (by omega), if_pos here, if_pos (by omega), if_pos (by omega), ← here, Nat.sub_self, List.getElem?_cons_zero]
    · by_cases later : start < i ∧ i < start + (new.length + 1)
      · rw [if_pos (by omega), if_pos (by omega), show i - start = i - (start + 1) + 1 by omega, List.getElem?_cons_succ]
      · rw [if_neg (by omega), if_neg here, if_neg (by omega)]

/-- The stretch that was replaced. -/
theorem extract_overwrite (fits : start + new.size ≤ data.size) :
    (overwrite data start new.toList).extract start (start + new.size) = new := by
  refine Array.ext_getElem? fun i => ?_
  rw [Array.getElem?_extract, size_overwrite, getElem?_overwrite (by rwa [Array.length_toList]), Array.length_toList]
  by_cases inside : i < new.size
  · rw [if_pos (by omega), if_pos (by omega), Nat.add_sub_cancel_left, Array.getElem?_toList]
  · rw [if_neg (by omega), Array.getElem?_eq_none (by omega)]

/-- A stretch that does not meet the one that was replaced. -/
theorem extract_overwrite_of_apart (fits : start + new.size ≤ data.size)
    (apart : ∀ i, start ≤ i → i < start + new.size → first ≤ i → i < last → False) :
    (overwrite data start new.toList).extract first last = data.extract first last := by
  refine Array.ext_getElem? fun i => ?_
  rw [Array.getElem?_extract, Array.getElem?_extract, size_overwrite]
  split
  · rw [getElem?_overwrite (by rwa [Array.length_toList]), Array.length_toList, if_neg]
    rintro ⟨above, below⟩
    exact apart (first + i) above below (by omega) (by omega)
  · rfl

/-- Replacing a stretch by itself. -/
theorem overwrite_extract (fits : start + last ≤ data.size) :
    overwrite data start (data.extract start (start + last)).toList = data := by
  have size : (data.extract start (start + last)).toList.length = last := by
    rw [Array.length_toList, Array.size_extract]
    omega
  refine Array.ext_getElem? fun i => ?_
  rw [getElem?_overwrite (by rwa [size]), size]
  split
  · rw [Array.getElem?_toList, Array.getElem?_extract, if_pos (by omega), show start + (i - start) = i by omega]
  · rfl

end

/-! Which indices there are -/

section
variable {a b : ArrayValue} {is js : List Int64} {n m : Nat}

/-- Where the part at a list of indices begins, and how long it is. -/
theorem blockAt_eq_ok {place : Nat × Nat} : a.blockAt is = .ok place ↔
    is.length ≤ a.rank ∧ ∃ n, blockNumber 0 is a.shape = .ok n ∧ (n * a.partSize is.length, a.partSize is.length) = place := by
  rw [blockAt]
  by_cases long : a.rank < is.length
  · rw [if_pos long]
    refine ⟨fun h => ?_, fun h => absurd h.1 (Nat.not_le.mpr long)⟩
    cases h
  · rw [if_neg long]
    simp only [bind_eq_ok, Except.ok.injEq]
    exact (and_iff_right (Nat.not_lt.mp long)).symm

/-- In a regular array there is a part just where the indices are in bounds. -/
theorem Regular.exists_index_iff (regular : a.Regular) :
    (∃ x, a.index is = .ok x) ↔ is.length ≤ a.rank ∧ InBounds is (a.shape.take is.length) := by
  constructor
  · rintro ⟨x, found⟩
    obtain ⟨short, n, counted, _⟩ := index_eq_ok.mp found
    exact ⟨short, ((blockNumber_eq_ok short).mp counted).1⟩
  · rintro ⟨short, bounded⟩
    obtain ⟨idx, _, within, back⟩ := bounded.exists_inside
    have counted := (blockNumber_eq_ok (n := 0) short).mpr ⟨bounded, rfl⟩
    rw [← back, Nat.zero_mul, Nat.zero_add] at counted
    have below := position_lt within
    generalize position idx (a.shape.take is.length) = n at counted below
    have whole : volume (a.shape.take is.length) * a.partSize is.length = a.data.size := by
      rw [regular, partSize, ← volume_append, List.take_append_drop]
    have fits : (n + 1) * a.partSize is.length ≤ a.data.size := whole ▸ Nat.mul_le_mul_right _ below
    by_cases full : a.shape.drop is.length = []
    · -- a part without dimensions is one element
      have one : a.partSize is.length = 1 := by rw [partSize, full, volume]
      rw [one, Nat.mul_one] at fits
      refine ⟨.scalar a.data[n], index_eq_ok.mpr ⟨short, n, counted, by rwa [one, Nat.mul_one], ?_⟩⟩
      have first : (a.data.extract n (n + 1))[0]? = some a.data[n] := by
        rw [Array.getElem?_extract, if_pos (by omega), Nat.add_zero, Array.getElem?_eq_getElem]
      simp only [one, Nat.mul_one, full, part, first]
    · exact ⟨_, index_eq_ok.mpr ⟨short, n, counted, fits, part_of_ne_nil _ full⟩⟩

theorem inBounds_behind (h : InBounds (is ++ js) (a.shape.take (is ++ js).length)) :
    InBounds js ((a.shape.drop is.length).take js.length) := by
  have rest := List.forall₂_drop is.length h
  rwa [List.drop_left, List.length_append, List.drop_take, Nat.add_sub_cancel_left] at rest

/-- Indexing composes: reading on in a part is reading at the longer list, and fails where that fails. -/
theorem toOption_index_append {p : ArrayValue} (outer : a.index is = .ok (.array p)) (js : List Int64) :
    (a.index (is ++ js)).toOption = (p.index js).toOption := by
  cases inner : p.index js with
  | ok x => rw [index_index outer inner]
  | error e =>
    cases whole : a.index (is ++ js) with
    | error e' => rfl
    | ok x =>
      obtain ⟨_, _, _, shape, regular, _⟩ := index_eq_array outer
      obtain ⟨short, n, counted, _⟩ := index_eq_ok.mp whole
      have bounded := inBounds_behind ((blockNumber_eq_ok short).mp counted).1
      have short' : js.length ≤ p.rank := by
        rw [rank, shape, List.length_drop]
        rw [List.length_append, rank] at short
        omega
      obtain ⟨y, found⟩ := regular.exists_index_iff.mpr ⟨short', by rwa [shape]⟩
      rw [inner] at found
      cases found

/-- The elements of a part are those whose index extends the list. -/
theorem exists_position_of_part (short : is.length ≤ a.rank) (counted : blockNumber 0 is a.shape = .ok n) {i : Nat}
    (above : n * a.partSize is.length ≤ i) (below : i < (n + 1) * a.partSize is.length) :
    ∃ idx inner, is = idx.map Int64.ofNat ∧ Inside (idx ++ inner) a.shape ∧ position (idx ++ inner) a.shape = i := by
  obtain ⟨bounded, number⟩ := (blockNumber_eq_ok short).mp counted
  obtain ⟨idx, same, within, back⟩ := bounded.exists_inside
  rw [← back, Nat.zero_mul, Nat.zero_add] at number
  rw [Nat.add_mul, Nat.one_mul] at below
  have offset : i - n * a.partSize is.length < volume (a.shape.drop is.length) := by
    rw [partSize] at below above ⊢
    omega
  obtain ⟨inner, inside, place⟩ := exists_position_eq offset
  have split : a.shape.take is.length ++ a.shape.drop is.length = a.shape := List.take_append_drop _ _
  refine ⟨idx, inner, same, ?_, ?_⟩
  · rw [← split]
    exact List.rel_append within inside
  · rw [← split, position_append within.length_eq, place, ← number]
    exact Nat.add_sub_cancel' above

/-- The parts at two lists meet only if one of the lists extends the other. -/
theorem isPrefix_of_common (short : is.length ≤ a.rank) (counted : blockNumber 0 is a.shape = .ok n) (short' : js.length ≤ a.rank)
    (counted' : blockNumber 0 js a.shape = .ok m) {i : Nat} (above : n * a.partSize is.length ≤ i)
    (below : i < (n + 1) * a.partSize is.length) (above' : m * a.partSize js.length ≤ i) (below' : i < (m + 1) * a.partSize js.length) :
    is <+: js ∨ js <+: is := by
  obtain ⟨idx, inner, rfl, inside, place⟩ := exists_position_of_part short counted above below
  obtain ⟨idx', inner', rfl, inside', place'⟩ := exists_position_of_part short' counted' above' below'
  have same := position_inj inside inside' (place.trans place'.symm)
  have common := List.prefix_or_prefix_of_prefix (List.prefix_append idx inner) (same ▸ List.prefix_append idx' inner')
  exact common.imp (·.map Int64.ofNat) (·.map Int64.ofNat)

end

/-! Updates -/

/-- The kind of value that is read at a list of indices: a scalar where the list is full, and otherwise an array of elements of the
same type. -/
def Takes (a : ArrayValue) (is : List Int64) : Value → Prop
  | .scalar _ => is.length = a.rank
  | .array p => is.length ≠ a.rank ∧ p.elem = a.elem
  | .mem _ _ => False

section
variable {a b : ArrayValue} {is js : List Int64} {v : Value} {x : Name} {new : Array Scalar}

theorem drop_rank_iff : a.shape.drop is.length = [] ↔ a.rank ≤ is.length := List.drop_eq_nil_iff

/-- The elements that an array takes from a value are those that the value is read from. -/
theorem accepts_takes_iff (short : is.length ≤ a.rank) : a.accepts is (a.partSize is.length) v = some new ∧ a.Takes is v ↔
    new.size = a.partSize is.length ∧ part a.elem (a.shape.drop is.length) new = .ok v := by
  by_cases full : is.length = a.rank
  · have flat : a.shape.drop is.length = [] := drop_rank_iff.mpr (by omega)
    rw [partSize, flat, volume]
    cases v with
    | scalar c =>
      rw [accepts, if_pos full]
      constructor
      · rintro ⟨same, _⟩
        cases same
        exact ⟨rfl, rfl⟩
      · rintro ⟨one, read⟩
        obtain ⟨c', rfl⟩ := Array.size_eq_one_iff.mp one
        cases read
        exact ⟨rfl, full⟩
    | array p =>
      refine ⟨fun h => absurd full h.2.1, fun h => absurd rfl (part_eq_array h.2).1⟩
    | mem size space =>
      refine ⟨fun h => absurd h.2 id, fun h => ?_⟩
      have read := h.2
      cases first : new[0]? with
      | none => simp [part, first] at read
      | some c => simp [part, first] at read
  · have some : a.shape.drop is.length ≠ [] := fun none => full (by have := drop_rank_iff.mp none; omega)
    rw [part_of_ne_nil _ some]
    cases v with
    | scalar c =>
      refine ⟨fun h => absurd h.2 full, fun h => ?_⟩
      cases h.2
    | array p =>
      rw [accepts]
      constructor
      · rintro ⟨same, _, elem⟩
        split at same
        · rename_i fitting
          cases same
          exact ⟨fitting.1, by rw [← elem, ← fitting.2]⟩
        · cases same
      · rintro ⟨size, read⟩
        cases read
        rw [if_pos ⟨size, rfl⟩]
        exact ⟨rfl, full, rfl⟩
    | mem size space =>
      refine ⟨fun h => absurd h.2 id, fun h => ?_⟩
      cases h.2

/-- What an update replaces, and by what. -/
theorem updateAt_eq_ok : updateAt x a is (.ok v) = .ok b ↔ is.length ≤ a.rank ∧ ∃ n new, blockNumber 0 is a.shape = .ok n ∧
    a.accepts is (a.partSize is.length) v = some new ∧ n * a.partSize is.length + new.size ≤ a.data.size ∧
    { a with data := overwrite a.data (n * a.partSize is.length) new.toList } = b := by
  simp only [updateAt, bind_eq_ok, blockAt_eq_ok, write]
  constructor
  · rintro ⟨_, ⟨short, n, counted, rfl⟩, _, same, h⟩
    cases same
    split at h
    · rename_i new accepted
      split at h
      · exact ⟨short, n, new, counted, accepted, ‹_›, Except.ok.inj h⟩
      · cases h
    · cases h
  · rintro ⟨short, n, new, counted, accepted, fits, same⟩
    refine ⟨_, ⟨short, n, counted, rfl⟩, v, rfl, ?_⟩
    simp only [accepted, if_pos fits, same]

/-- What was written is read. -/
theorem index_updateAt (takes : a.Takes is v) (h : updateAt x a is (.ok v) = .ok b) : b.index is = .ok v := by
  obtain ⟨short, n, new, counted, accepted, fits, rfl⟩ := updateAt_eq_ok.mp h
  obtain ⟨size, read⟩ := (accepts_takes_iff short).mp ⟨accepted, takes⟩
  have next : (n + 1) * a.partSize is.length = n * a.partSize is.length + new.size := by rw [Nat.add_mul, Nat.one_mul, size]
  refine index_eq_ok.mpr ⟨short, n, counted, ?_, ?_⟩
  · rw [size_overwrite]
    exact next ▸ fits
  · have here := extract_overwrite fits
    rw [← next] at here
    exact here.symm ▸ read

/-- What is read elsewhere stays, also if it is an error. -/
theorem index_updateAt_of_not_prefix (takes : a.Takes is v) (h : updateAt x a is (.ok v) = .ok b) (apart : ¬is <+: js)
    (apart' : ¬js <+: is) : b.index js = a.index js := by
  obtain ⟨short, n, new, counted, accepted, fits, rfl⟩ := updateAt_eq_ok.mp h
  obtain ⟨size, _⟩ := (accepts_takes_iff short).mp ⟨accepted, takes⟩
  have where' : blockAt { a with data := overwrite a.data (n * a.partSize is.length) new.toList } js = a.blockAt js := rfl
  rw [index, index, where']
  cases found : a.blockAt js with
  | error e => rfl
  | ok place =>
    obtain ⟨short', m, counted', rfl⟩ := blockAt_eq_ok.mp found
    have one (k l : Nat) : (k + 1) * l = k * l + l := by rw [Nat.add_mul, Nat.one_mul]
    have stays : (overwrite a.data (n * a.partSize is.length) new.toList).extract (m * a.partSize js.length)
          (m * a.partSize js.length + a.partSize js.length) =
        a.data.extract (m * a.partSize js.length) (m * a.partSize js.length + a.partSize js.length) := by
      refine extract_overwrite_of_apart fits fun i above below above' below' => ?_
      have meets := isPrefix_of_common short counted short' counted' above (by rw [one]; omega) above' (by rwa [one])
      exact meets.elim apart apart'
    simp only [ok_bind, cells, size_overwrite, stays]

/-- Writing what is there changes nothing. -/
theorem updateAt_index (found : a.index is = .ok v) : updateAt x a is (.ok v) = .ok a := by
  obtain ⟨short, n, counted, fits, read⟩ := index_eq_ok.mp found
  rw [Nat.add_mul, Nat.one_mul] at fits read
  have size : (a.data.extract (n * a.partSize is.length) (n * a.partSize is.length + a.partSize is.length)).size = a.partSize is.length := by
    rw [Array.size_extract]
    omega
  obtain ⟨accepted, _⟩ := (accepts_takes_iff short).mpr ⟨size, read⟩
  refine updateAt_eq_ok.mpr ⟨short, n, _, counted, accepted, by rwa [size], ?_⟩
  rw [overwrite_extract fits]

theorem eval_update_eq_ok {env : Env} {indices : List Operand} {y : Operand} (read : env.array x = .ok a)
    (places : indices.mapM env.word = .ok is) (given : env.operand y = .ok v) :
    (Exp.update x indices y).eval env = .ok [.array b] ↔ updateAt x a is (.ok v) = .ok b := by
  rw [Exp.eval, read, ok_bind, places, ok_bind, given]
  simp [bind_eq_ok]

end

end ArrayValue

/-- Two rows of three elements. -/
def sampleTable (ns : List Int64) : ArrayValue := ⟨.i64, [2, 3], (ns.map .i64).toArray⟩

def sampleTableEnv : Env := ⟨[(⟨"table", 0⟩, .array (sampleTable [1, 2, 3, 4, 5, 6])), (⟨"row", 1⟩, .words [7, 8, 9])]⟩

end ArrayKernels
