import ArrayKernels.Proofs.Parts

/-! Row-major numbering. The number of an index and the coordinates of a number are inverse to each other, and neither the number
of elements nor the sum of strides depends on the order of the dimensions. -/
namespace ArrayKernels

/-- Each entry is below the size of its dimension. -/
def Inside (idx dims : List Nat) : Prop := List.Forall₂ (· < ·) idx dims

/-- Each word is an index of its dimension. -/
def InBounds (is : List Int64) (dims : List Nat) : Prop := List.Forall₂ (fun i d => 0 ≤ i ∧ i.toInt.toNat < d) is dims

/-- The row-major number of an index. -/
def position : List Nat → List Nat → Nat
  | i :: idx, _ :: dims => i * volume dims + position idx dims
  | _, _ => 0

section
variable {idx idx' dims dims' : List Nat} {d n : Nat}

theorem volume_pos_of_inside (h : Inside idx dims) : 0 < volume dims := by
  induction h with
  | nil => exact Nat.one_pos
  | cons below _ ih => exact Nat.mul_pos (by omega) ih

theorem le_volume (mem : d ∈ dims) (filled : 0 < volume dims) : d ≤ volume dims := by
  induction dims with
  | nil => exact absurd mem List.not_mem_nil
  | cons e dims ih =>
    have first : 0 < e := Nat.pos_of_mul_pos_right filled
    have rest : 0 < volume dims := Nat.pos_of_mul_pos_left filled
    rcases List.mem_cons.mp mem with rfl | mem
    · exact Nat.le_mul_of_pos_right _ rest
    · exact Nat.le_trans (ih mem rest) (Nat.le_mul_of_pos_left _ first)

theorem position_lt (h : Inside idx dims) : position idx dims < volume dims := by
  induction h with
  | nil => exact Nat.one_pos
  | @cons i d idx dims below _ ih =>
    calc i * volume dims + position idx dims
      _ < (i + 1) * volume dims := by rw [Nat.add_mul, Nat.one_mul]; omega
      _ ≤ d * volume dims := Nat.mul_le_mul_right _ below

theorem position_append (full : idx.length = dims.length) (idx' dims' : List Nat) :
    position (idx ++ idx') (dims ++ dims') = position idx dims * volume dims' + position idx' dims' := by
  induction idx generalizing dims with
  | nil =>
    obtain rfl := List.length_eq_zero_iff.mp full.symm
    simp [position]
  | cons i idx ih =>
    cases dims with
    | nil => cases full
    | cons d dims =>
      rw [List.cons_append, List.cons_append, position, position, ih (Nat.succ.inj full), ArrayValue.volume_append, Nat.add_mul,
        Nat.mul_assoc, Nat.add_assoc]

/-- The numbers behind `t` whole shapes. -/
theorem shift_position_cons (t i : Nat) (idx : List Nat) (d : Nat) (dims : List Nat) :
    t * volume (d :: dims) + position (i :: idx) (d :: dims) = (t * d + i) * volume dims + position idx dims := by
  rw [volume, position, Nat.add_mul, Nat.mul_assoc, Nat.add_assoc]

theorem coordinates_position (h : Inside idx dims) (t : Nat) :
    coordinates (t * volume dims + position idx dims) dims = (t, idx) := by
  induction h generalizing t with
  | nil => simp [coordinates, volume, position]
  | @cons i d idx dims below _ ih =>
    have size : max d 1 = d := by omega
    rw [coordinates, shift_position_cons, ih (t * d + i)]
    simp only [size]
    rw [Nat.mul_comm t d, Nat.mul_add_div (by omega), Nat.div_eq_of_lt below, Nat.add_zero, Nat.mul_add_mod,
      Nat.mod_eq_of_lt below]

theorem inside_coordinates (t : Nat) (filled : 0 < volume dims) : Inside (coordinates t dims).2 dims := by
  induction dims with
  | nil => exact .nil
  | cons d dims ih =>
    have first : 0 < d := Nat.pos_of_mul_pos_right filled
    have rest : 0 < volume dims := Nat.pos_of_mul_pos_left filled
    refine .cons ?_ (ih rest)
    rw [Nat.max_eq_left first]
    exact Nat.mod_lt _ first

theorem position_coordinates (t : Nat) (filled : 0 < volume dims) :
    (coordinates t dims).1 * volume dims + position (coordinates t dims).2 dims = t := by
  induction dims with
  | nil => simp [coordinates, volume, position]
  | cons d dims ih =>
    have first : 0 < d := Nat.pos_of_mul_pos_right filled
    have rest : 0 < volume dims := Nat.pos_of_mul_pos_left filled
    have inner := ih rest
    have whole := Nat.div_add_mod (coordinates t dims).1 d
    rw [coordinates, position, volume, Nat.max_eq_left first, ← Nat.add_assoc, ← Nat.mul_assoc, ← Nat.add_mul,
      Nat.mul_comm _ d, whole, inner]

theorem position_inj (h : Inside idx dims) (h' : Inside idx' dims) (same : position idx dims = position idx' dims) : idx = idx' := by
  have first := coordinates_position h 0
  rw [same, coordinates_position h' 0] at first
  exact (congrArg Prod.snd first).symm

/-- Every number below the volume is that of an index. -/
theorem exists_position_eq (below : n < volume dims) : ∃ idx, Inside idx dims ∧ position idx dims = n := by
  have filled : 0 < volume dims := by omega
  refine ⟨_, inside_coordinates n filled, ?_⟩
  have whole := position_coordinates n filled
  have outer : (coordinates n dims).1 = 0 := by
    refine Nat.eq_zero_of_not_pos fun more => ?_
    have := Nat.le_mul_of_pos_left (volume dims) more
    omega
  rwa [outer, Nat.zero_mul, Nat.zero_add] at whole

/-- The numbers added up from left to right. -/
def total (ns : List Nat) : Nat := ns.foldl (· + ·) 0

theorem total_cons (n : Nat) (ns : List Nat) : total (n :: ns) = n + total ns := by
  rw [total, List.foldl_cons, Nat.zero_add, ← Nat.add_zero n, List.foldl_assoc, Nat.add_zero]
  rfl

theorem position_eq_total (idx dims : List Nat) : position idx dims = total (List.zipWith (· * ·) idx (strides dims)) := by
  induction idx generalizing dims with
  | nil => rfl
  | cons i idx ih =>
    cases dims with
    | nil => rfl
    | cons d dims => rw [position, strides, List.zipWith_cons_cons, total_cons, ih]

theorem length_strides (dims : List Nat) : (strides dims).length = dims.length := by
  induction dims with
  | nil => rfl
  | cons d dims ih => rw [strides, List.length_cons, ih, List.length_cons]

end

/-! The order of the dimensions -/

section
variable {perm dims dims' : List Nat}

theorem volume_eq_of_perm (h : dims.Perm dims') : volume dims = volume dims' := by
  induction h with
  | nil => rfl
  | cons d _ ih => rw [volume, volume, ih]
  | swap d e dims => rw [volume, volume, volume, volume, Nat.mul_left_comm]
  | trans _ _ ih ih' => exact ih.trans ih'

theorem total_eq_of_perm {ns ms : List Nat} (h : ns.Perm ms) : total ns = total ms := by
  induction h with
  | nil => rfl
  | cons n _ ih => rw [total_cons, total_cons, ih]
  | swap n m ns => rw [total_cons, total_cons, total_cons, total_cons, Nat.add_left_comm]
  | trans _ _ ih ih' => exact ih.trans ih'

theorem map_range_getD (xs : List Nat) : (List.range xs.length).map (fun p => xs.getD p 0) = xs := by
  refine List.ext_getElem (by simp) fun i _ below => ?_
  simp [below]

theorem volume_map_getD (moves : perm.Perm (List.range dims.length)) :
    volume (perm.map fun p => dims.getD p 0) = volume dims := by
  rw [volume_eq_of_perm (moves.map _), map_range_getD]

/-- A list with one entry for each of some distinct numbers is a function of them. -/
theorem exists_eq_map {α : Type} [Nonempty α] {idx : List α} (distinct : perm.Nodup) (full : idx.length = perm.length) :
    ∃ x : Nat → α, idx = perm.map x := by
  induction perm generalizing idx with
  | nil => exact ⟨fun _ => Classical.ofNonempty, List.length_eq_zero_iff.mp full⟩
  | cons p perm ih =>
    cases idx with
    | nil => cases full
    | cons i idx =>
      obtain ⟨fresh, distinct⟩ := List.nodup_cons.mp distinct
      obtain ⟨x, rfl⟩ := ih distinct (Nat.succ.inj full)
      refine ⟨fun q => if q = p then i else x q, ?_⟩
      have others : perm.map (fun q => if q = p then i else x q) = perm.map x :=
        List.map_congr_left fun q mem => if_neg fun same : q = p => fresh (same ▸ mem)
      rw [List.map_cons, others, if_pos rfl]

theorem inside_of_permuted {x : Nat → Nat} (moves : perm.Perm (List.range dims.length))
    (h : Inside (perm.map x) (perm.map fun p => dims.getD p 0)) : Inside ((List.range dims.length).map x) dims := by
  have each : ∀ p ∈ perm, x p < dims.getD p 0 := by
    rw [Inside, List.forall₂_map_left_iff, List.forall₂_map_right_iff, List.forall₂_same] at h
    exact h
  have whole : Inside ((List.range dims.length).map x) ((List.range dims.length).map fun p => dims.getD p 0) := by
    rw [Inside, List.forall₂_map_left_iff, List.forall₂_map_right_iff, List.forall₂_same]
    exact fun p mem => each p (moves.mem_iff.mpr mem)
  rwa [map_range_getD] at whole

/-- The strides of the dimensions, summed in any order. -/
theorem total_permuted (x : Nat → Nat) (moves : perm.Perm (List.range dims.length)) :
    total (List.zipWith (· * ·) (perm.map x) (perm.map fun p => (strides dims).getD p 0)) =
      position ((List.range dims.length).map x) dims := by
  have paired (ps : List Nat) : List.zipWith (· * ·) (ps.map x) (ps.map fun p => (strides dims).getD p 0) =
      ps.map fun p => x p * (strides dims).getD p 0 := by
    induction ps with
    | nil => rfl
    | cons p ps ih => rw [List.map_cons, List.map_cons, List.zipWith_cons_cons, ih, List.map_cons]
  have ordered : (List.range dims.length).map (fun p => (strides dims).getD p 0) = strides dims := by
    rw [← length_strides, map_range_getD]
  calc total (List.zipWith (· * ·) (perm.map x) (perm.map fun p => (strides dims).getD p 0))
    _ = total (perm.map fun p => x p * (strides dims).getD p 0) := by rw [paired]
    _ = total ((List.range dims.length).map fun p => x p * (strides dims).getD p 0) := total_eq_of_perm (moves.map _)
    _ = position ((List.range dims.length).map x) dims := by rw [← paired, ordered, position_eq_total]

end

/-! Elements at an index -/

theorem ofNat_toNat_of_nonneg {i : Int64} (low : 0 ≤ i.toInt) : Int64.ofNat i.toInt.toNat = i := by
  rw [← Int64.ofInt_eq_ofNat, Int.toNat_of_nonneg low, Int64.ofInt_toInt]

theorem InBounds.exists_inside {is : List Int64} {dims : List Nat} (h : InBounds is dims) :
    ∃ idx, is = idx.map Int64.ofNat ∧ Inside idx dims ∧ idx = is.map fun i => i.toInt.toNat := by
  induction h with
  | nil => exact ⟨[], rfl, .nil, rfl⟩
  | @cons i d is dims first _ ih =>
    obtain ⟨idx, made, within, back⟩ := ih
    have low : 0 ≤ i.toInt := Int64.le_iff_toInt_le.mp first.1
    refine ⟨i.toInt.toNat :: idx, ?_, .cons first.2 within, by rw [back, List.map_cons]⟩
    rw [List.map_cons, ofNat_toNat_of_nonneg low, ← made]

namespace ArrayValue

variable {a b : ArrayValue} {is : List Int64} {dims : List Nat} {n m : Nat}

/-- A block has a number just if its indices are in bounds. -/
theorem blockNumber_eq_ok (short : is.length ≤ dims.length) : blockNumber n is dims = .ok m ↔
    InBounds is (dims.take is.length) ∧
      m = n * volume (dims.take is.length) + position (is.map fun i => i.toInt.toNat) (dims.take is.length) := by
  induction is generalizing n dims with
  | nil => cases dims <;> simp [blockNumber, InBounds, volume, position, eq_comm]
  | cons i is ih =>
    cases dims with
    | nil => cases short
    | cons d dims =>
      rw [blockNumber, List.length_cons, List.take_succ_cons, List.map_cons, volume, position, InBounds, List.forall₂_cons]
      have low : 0 ≤ i ↔ ¬i < 0 := by rw [Int64.le_iff_toInt_le, Int64.lt_iff_toInt_lt, Int.not_lt]
      by_cases outside : i < 0 ∨ d ≤ i.toInt.toNat
      · rw [if_pos outside]
        refine ⟨fun h => ?_, fun h => absurd outside ?_⟩
        · cases h
        · exact not_or.mpr ⟨low.mp h.1.1.1, Nat.not_le.mpr h.1.1.2⟩
      · obtain ⟨above, below⟩ := not_or.mp outside
        have first : 0 ≤ i ∧ i.toInt.toNat < d := ⟨low.mpr above, Nat.not_le.mp below⟩
        rw [if_neg outside, ih (Nat.le_of_succ_le_succ short), Nat.add_mul, Nat.mul_assoc, Nat.add_assoc]
        exact and_congr_left fun _ => (and_iff_right first).symm

/-- A full index in bounds has an element. -/
theorem index_of_inBounds {c : Scalar} (h : InBounds is a.shape)
    (there : a.data[position (is.map fun i => i.toInt.toNat) a.shape]? = some c) : a.index is = .ok (.scalar c) := by
  have full : is.length = a.shape.length := h.length_eq
  have one : a.partSize is.length = 1 := by rw [partSize, full, List.drop_length, volume]
  obtain ⟨below, here⟩ := Array.getElem?_eq_some_iff.mp there
  refine index_eq_ok.mpr ⟨Nat.le_of_eq full, position (is.map fun i => i.toInt.toNat) a.shape, ?_, ?_, ?_⟩
  · refine (blockNumber_eq_ok (Nat.le_of_eq full)).mpr ?_
    rw [full, List.take_length, Nat.zero_mul, Nat.zero_add]
    exact ⟨h, rfl⟩
  · rw [one]
    omega
  · rw [full, List.drop_length, ← full, one, Nat.mul_one, Nat.mul_one]
    have first : (a.data.extract (position (is.map fun i => i.toInt.toNat) a.shape)
        (position (is.map fun i => i.toInt.toNat) a.shape + 1))[0]? = some c := by
      rw [Array.getElem?_extract, if_pos (by omega), Nat.add_zero, there]
    simp only [part, first]

/-- The elements of a part. -/
theorem index_eq_array (h : a.index is = .ok (.array b)) : ∃ idx, is = idx.map Int64.ofNat ∧
    Inside idx (a.shape.take is.length) ∧ b.shape = a.shape.drop is.length ∧ b.Regular ∧
    ∀ inner, Inside inner b.shape → b.data[position inner b.shape]? = a.data[position (idx ++ inner) a.shape]? := by
  obtain ⟨short, n, counted, fits, cut⟩ := index_eq_ok.mp h
  obtain ⟨_, rfl⟩ := part_eq_array cut
  obtain ⟨bounded, number⟩ := (blockNumber_eq_ok short).mp counted
  obtain ⟨idx, same, within, back⟩ := bounded.exists_inside
  rw [← back, Nat.zero_mul, Nat.zero_add] at number
  have stretch : (n + 1) * a.partSize is.length = n * a.partSize is.length + a.partSize is.length := by
    rw [Nat.add_mul, Nat.one_mul]
  refine ⟨idx, same, within, rfl, ?_, fun inner below => ?_⟩
  · rw [Regular, Array.size_extract, Nat.min_eq_left fits, stretch, Nat.add_sub_cancel_left]
    rfl
  · have here := position_lt below
    have whole : position (idx ++ inner) a.shape = n * a.partSize is.length + position inner (a.shape.drop is.length) := by
      rw [number, partSize, ← position_append within.length_eq, List.take_append_drop]
    rw [Array.getElem?_extract, if_pos ?_, whole]
    rw [Nat.min_eq_left fits, stretch, Nat.add_sub_cancel_left]
    exact here

/-- The elements of a rearranged array. -/
theorem rearrange_eq_ok {perm : List Nat} (h : a.rearrange perm = .ok b) : perm.Perm (List.range a.shape.length) ∧
    b.shape = perm.map (fun p => a.shape.getD p 0) ∧ b.Regular ∧
    ∀ x : Nat → Nat, Inside (perm.map x) b.shape →
      b.data[position (perm.map x) b.shape]? = a.data[position ((List.range a.shape.length).map x) a.shape]? := by
  rw [rearrange] at h
  split at h
  · rename_i moves
    have moves : perm.Perm (List.range a.shape.length) := List.isPerm_iff.mp moves
    obtain ⟨data, moved, made⟩ := bind_eq_ok.mp h
    cases made
    rw [collect_eq_mapM] at moved
    have each := mapM_eq_ok.mp moved
    have count : data.length = volume (perm.map fun p => a.shape.getD p 0) := by rw [← each.length_eq, List.length_range]
    refine ⟨moves, rfl, count, fun x inside => ?_⟩
    have below := position_lt inside
    have here := each.get (by rwa [List.length_range]) (by rwa [count])
    have coords := coordinates_position inside 0
    rw [Nat.zero_mul, Nat.zero_add] at coords
    have offset := total_permuted x moves
    rw [total] at offset
    simp only [List.get_eq_getElem, List.getElem_range, coords, offset] at here
    rw [List.getElem?_toArray, List.getElem?_eq_getElem (by rwa [count])]
    cases there : a.data[position ((List.range a.shape.length).map x) a.shape]? with
    | none =>
      rw [there] at here
      cases here
    | some c =>
      rw [there] at here
      rw [Except.ok.inj here]
  · cases h

end ArrayValue

end ArrayKernels
