import ArrayKernels.Proofs.Rebasing
import ArrayKernels.Proofs.RowMajor
import Mathlib.Algebra.Group.Nat.Defs

/-! Views of arrays. Rearranging, reshaping and indexing make new arrays from the elements of an array. An index function that
takes the same steps from the row-major layout finds every element where it was. -/
namespace ArrayKernels

/-! Constant index expressions -/

/-- Counts as constants. -/
def counts (ns : List Nat) : List IndexExpr := ns.map fun n => .const (.ofNat n)

section
variable {idx dims : List Nat} {n d : Nat}

theorem length_counts (ns : List Nat) : (counts ns).length = ns.length := List.length_map _

theorem foldl_counts (full : idx.length = dims.length) (n : Nat) :
    ((counts dims).zip (counts idx)).foldl (fun acc di => (acc.times di.1).plus di.2) (IndexExpr.const (.ofNat n)) =
      IndexExpr.const (.ofNat (n * volume dims + position idx dims)) := by
  induction dims generalizing idx n with
  | nil =>
    obtain rfl := List.length_eq_zero_iff.mp full
    simp [counts, volume, position]
  | cons d dims ih =>
    cases idx with
    | nil => cases full
    | cons i idx =>
      have next : ((IndexExpr.const (.ofNat n)).times (.const (.ofNat d))).plus (.const (.ofNat i)) =
          .const (.ofNat (n * d + i)) := by
        rw [IndexExpr.times, IndexExpr.plus, Int64.ofNat_add, Int64.ofNat_mul]
      have rest := ih (Nat.succ.inj full) (n * d + i)
      simp only [counts, List.map_cons, List.zip_cons_cons, List.foldl_cons] at rest ⊢
      rw [next, rest, volume, position, Nat.add_mul, Nat.mul_assoc, Nat.add_assoc]

/-- Words add and multiply as the counts do, however large these are, so that no bound is needed here. -/
theorem flatOffset_counts (full : idx.length = dims.length) :
    flatOffset (counts dims) (counts idx) = .const (.ofNat (position idx dims)) := by
  cases dims with
  | nil =>
    obtain rfl := List.length_eq_zero_iff.mp full
    rfl
  | cons d dims =>
    cases idx with
    | nil => cases full
    | cons i idx => exact foldl_counts (Nat.succ.inj full) i

theorem ofNat_ne_zero (short : d < 2 ^ 63) (filled : 0 < d) : Int64.ofNat d ≠ 0 := by
  intro zero
  have size : (Int64.ofNat d).toInt = d := Int64.toInt_ofNat_of_lt short
  rw [zero, Int64.toInt_zero] at size
  omega

theorem word_quotient_ofNat (small : n < 2 ^ 63) (short : d < 2 ^ 63) (filled : 0 < d) :
    Word.quotient (.ofNat n) (.ofNat d) = some (.ofNat (n / d)) := by
  have less : n / d < 2 ^ 63 := Nat.lt_of_le_of_lt (Nat.div_le_self n d) small
  rw [Word.quotient, if_neg (ofNat_ne_zero short filled), Int64.toInt_ofNat_of_lt short, Int64.toInt_ofNat_of_lt small,
    ← Int.natCast_ediv]
  generalize n / d = q at less ⊢
  rw [Word.fit_of_range (by omega) (by omega), Int64.ofInt_eq_ofNat]

theorem word_remainder_ofNat (small : n < 2 ^ 63) (short : d < 2 ^ 63) (filled : 0 < d) :
    Word.remainder (.ofNat n) (.ofNat d) = some (.ofNat (n % d)) := by
  rw [Word.remainder, word_quotient_ofNat small short filled, Int64.toInt_ofNat_of_lt short, Int64.toInt_ofNat_of_lt small,
    Option.map_some, ← Int.natCast_emod, Int64.ofInt_eq_ofNat]

theorem quotient_ofNat (small : n < 2 ^ 63) (short : d < 2 ^ 63) (filled : 0 < d) :
    (IndexExpr.const (.ofNat n)).quotient (.const (.ofNat d)) = some (.const (.ofNat (n / d))) := by
  rw [IndexExpr.quotient, if_neg (ofNat_ne_zero short filled), word_quotient_ofNat small short filled, Option.map_some]

theorem remainder_ofNat (small : n < 2 ^ 63) (short : d < 2 ^ 63) (filled : 0 < d) :
    (IndexExpr.const (.ofNat n)).remainder (.const (.ofNat d)) = some (.const (.ofNat (n % d))) := by
  rw [IndexExpr.remainder, if_neg (ofNat_ne_zero short filled), word_remainder_ofNat small short filled, Option.map_some]

/-- Division sees the sign of a word: every quotient has to be that of a number which fits. -/
theorem peel_counts (h : Inside idx dims) (short : ∀ d ∈ dims, d < 2 ^ 63) {t : Nat}
    (small : t * volume dims + position idx dims < 2 ^ 63) :
    peel (.const (.ofNat (t * volume dims + position idx dims))) (counts dims) = some (.const (.ofNat t), counts idx) := by
  induction h generalizing t with
  | nil => simp [counts, peel, volume, position]
  | @cons i d idx dims below rest ih =>
    rw [shift_position_cons] at small ⊢
    have left : t * d + i < 2 ^ 63 := by
      have := Nat.le_mul_of_pos_right (t * d + i) (volume_pos_of_inside rest)
      omega
    have size := short d List.mem_cons_self
    have outer : (t * d + i) / d = t := by
      rw [Nat.mul_comm, Nat.mul_add_div (by omega), Nat.div_eq_of_lt below, Nat.add_zero]
    have here : (t * d + i) % d = i := by rw [Nat.mul_comm, Nat.mul_add_mod, Nat.mod_eq_of_lt below]
    have tail := ih (fun e mem => short e (List.mem_cons_of_mem d mem)) small
    have quotient := quotient_ofNat left size (Nat.zero_lt_of_lt below)
    have remainder := remainder_ofNat left size (Nat.zero_lt_of_lt below)
    rw [outer] at quotient
    rw [here] at remainder
    simp only [counts, List.map_cons, peel] at tail ⊢
    simp only [tail, Option.bind_eq_bind, Option.bind_some, quotient, remainder]

theorem indexAt_counts (h : Inside idx dims) (small : volume dims < 2 ^ 63) :
    indexAt (.const (.ofNat (position idx dims))) (counts dims) = some (counts idx) := by
  cases h with
  | nil => rfl
  | @cons i d idx dims below rest =>
    have filled := volume_pos_of_inside rest
    have bound := position_lt (.cons below rest : Inside (i :: idx) (d :: dims))
    have short : ∀ e ∈ dims, e < 2 ^ 63 := by
      intro e mem
      have := le_volume mem filled
      have := Nat.le_mul_of_pos_left (volume dims) (Nat.zero_lt_of_lt below)
      rw [volume] at small
      omega
    rw [position] at bound ⊢
    have peeled := peel_counts rest short (Nat.lt_trans bound small)
    simp only [counts, List.map_cons, indexAt] at peeled ⊢
    rw [peeled, Option.map_some]

end

/-! Moved and fixed indices -/

/-- Each index finds its place, whatever the order. -/
theorem unpermute_map {perm : List Nat} (moves : perm.Perm (List.range perm.length)) (x : Nat → IndexExpr) :
    unpermute perm (perm.map x) = some ((List.range perm.length).map x) := by
  -- the places of the first `j` dimensions are filled
  have placed (j : Nat) (most : j ≤ perm.length) : (List.range j).foldlM
      (fun acc i => do
        let p ← perm[i]?
        let x ← (perm.map x)[i]?
        if p < acc.length then some (acc.set p x) else none)
      (List.replicate perm.length (.const 0)) =
      some ((List.range perm.length).map fun p => if p ∈ perm.take j then x p else .const 0) := by
    induction j with
    | zero => simp
    | succ j ih =>
      have below : j < perm.length := by omega
      have inside : perm[j] < perm.length := List.mem_range.mp (moves.mem_iff.mp (List.getElem_mem below))
      rw [List.range_succ, List.foldlM_append, ih (by omega)]
      simp only [List.foldlM_cons, List.foldlM_nil, Option.bind_eq_bind, Option.bind_some, List.getElem?_map,
        List.getElem?_eq_getElem below, Option.map_some, List.length_map, List.length_range, if_pos inside]
      refine congrArg some (List.ext_getElem (by simp) fun p _ _ => ?_)
      rw [List.getElem_set, List.getElem_map, List.getElem_map, List.getElem_range]
      simp only [List.take_succ_eq_append_getElem below, List.mem_append, List.mem_singleton]
      by_cases here : perm[j] = p
      · simp [here]
      · simp [here, Ne.symm here]
  have all := placed perm.length (Nat.le_refl _)
  rw [List.take_length] at all
  rw [unpermute, all]
  refine congrArg some (List.map_congr_left fun p mem => if_pos (moves.mem_iff.mpr mem))

theorem mapM_counts {perm dims : List Nat} (inside : ∀ p ∈ perm, p < dims.length) :
    perm.mapM (fun p => (counts dims)[p]?) = some (counts (perm.map fun p => dims.getD p 0)) := by
  induction perm with
  | nil => rfl
  | cons p perm ih =>
    have below := inside p List.mem_cons_self
    have first : (counts dims)[p]? = some (.const (.ofNat (dims.getD p 0))) := by
      rw [counts, List.getElem?_map, List.getD_eq_getElem?_getD, List.getElem?_eq_getElem below, Option.map_some,
        Option.getD_some]
    rw [List.mapM_cons, first, ih fun q mem => inside q (List.mem_cons_of_mem p mem)]
    rfl

theorem unslice_fixed (fixed : List IndexExpr) {dims idx : List IndexExpr} (full : idx.length = dims.length) :
    unslice (fixed.map .fix ++ dims.map .full) idx = fixed ++ idx := by
  induction fixed with
  | nil => exact unslice_full full
  | cons i fixed ih => rw [List.map_cons, List.cons_append, unslice, ih, List.cons_append]

theorem shape_fixed (fixed dims : List IndexExpr) :
    (fixed.map AxisSlice.fix ++ dims.map AxisSlice.full).filterMap AxisSlice.length = dims := by
  rw [List.filterMap_append, List.filterMap_map, List.filterMap_map]
  have none : fixed.filterMap (AxisSlice.length ∘ AxisSlice.fix) = [] := List.filterMap_eq_nil_iff.mpr fun _ _ => rfl
  have all : dims.filterMap (AxisSlice.length ∘ AxisSlice.full) = dims := List.filterMap_some
  rw [none, all, List.nil_append]

/-! Steps from an array to an array of its elements -/

/-- One step. -/
inductive ViewOp where
  | rearrange (perm : List Nat)
  | reshape (sizes : List Int64)
  | index (indices : List Int64)

namespace ViewOp

/-- The expression takes the step from the array of a variable. Its operands have the values of the step. -/
inductive TakenBy (env : Env) (v : Name) : ViewOp → Exp → Prop
  | rearrange (perm : List Nat) : TakenBy env v (.rearrange perm) (.rearrange perm v)
  | reshape {xs : List Operand} {sizes : List Int64} (values : xs.mapM env.word = .ok sizes) :
    TakenBy env v (.reshape sizes) (.reshape xs v)
  | index {xs : List Operand} {indices : List Int64} (values : xs.mapM env.word = .ok indices) :
    TakenBy env v (.index indices) (.index v xs)

/-- The same step of an index function. Dimensions behind the indices stay whole. -/
def track (f : IndexFn) : ViewOp → Option IndexFn
  | rearrange perm => some (f.permuted perm)
  | reshape sizes => some (.reshape f (sizes.map .const))
  | index indices => do
    let dims ← f.shape
    some (.slice f (indices.map (fun i => .fix (.const i)) ++ (dims.drop indices.length).map .full))

end ViewOp

/-- The evaluator takes the steps from the first array to the last, each by an expression in an environment of its own. -/
inductive Viewed : ArrayValue → List ViewOp → ArrayValue → Prop
  | refl (a : ArrayValue) : Viewed a [] a
  | step {a b c : ArrayValue} {op : ViewOp} {ops : List ViewOp} {env : Env} {v : Name} {e : Exp} (bound : env.array v = .ok a)
    (taken : op.TakenBy env v e) (made : e.eval env = .ok [.array b]) (rest : Viewed b ops c) : Viewed a (op :: ops) c

/-- The index function finds the elements of the second array among those of the first. -/
structure Finds (a : ArrayValue) (f : IndexFn) (b : ArrayValue) : Prop where
  shape : f.shape = some (counts b.shape)
  regular : b.Regular
  size : volume b.shape ≤ volume a.shape
  short : (∀ d ∈ a.shape, d < 2 ^ 63) → ∀ d ∈ b.shape, d < 2 ^ 63
  element : ∀ idx, Inside idx b.shape → ∃ o, f.apply (counts idx) = some (.const (.ofNat o)) ∧ o < a.data.size ∧
    b.data[position idx b.shape]? = a.data[o]?

namespace Finds

variable {a b c : ArrayValue} {f : IndexFn}

theorem rowMajor (regular : a.Regular) : Finds a (.rowMajor (counts a.shape)) a where
  shape := rfl
  regular := regular
  size := Nat.le_refl _
  short := id
  element idx inside := by
    refine ⟨position idx a.shape, ?_, regular ▸ position_lt inside, rfl⟩
    rw [IndexFn.apply, flatOffset_counts inside.length_eq]

theorem permuted (h : Finds a f b) {perm : List Nat} (made : b.rearrange perm = .ok c) : Finds a (f.permuted perm) c := by
  obtain ⟨moves, shape, regular, element⟩ := ArrayValue.rearrange_eq_ok made
  have rank : perm.length = b.shape.length := by rw [moves.length_eq, List.length_range]
  refine ⟨?_, regular, ?_, fun short => ?_, fun idx inside => ?_⟩
  · rw [shape, IndexFn.permuted]
    split
    · rename_i still
      rw [of_decide_eq_true still, rank, map_range_getD, h.shape]
    · rw [IndexFn.shape, h.shape]
      exact mapM_counts fun p mem => List.mem_range.mp (moves.mem_iff.mp mem)
  · rw [shape, volume_map_getD moves]
    exact h.size
  · intro d mem
    rw [shape] at mem
    obtain ⟨p, among, rfl⟩ := List.mem_map.mp mem
    have below : p < b.shape.length := List.mem_range.mp (moves.mem_iff.mp among)
    rw [List.getD_eq_getElem?_getD, List.getElem?_eq_getElem below, Option.getD_some]
    exact h.short short _ (List.getElem_mem below)
  · have full : idx.length = perm.length := by rw [inside.length_eq, shape, List.length_map]
    obtain ⟨x, rfl⟩ := exists_eq_map (moves.nodup_iff.mpr List.nodup_range) full
    obtain ⟨o, found, there, equal⟩ := h.element _ (inside_of_permuted moves (shape ▸ inside))
    refine ⟨o, ?_, there, (element x inside).trans equal⟩
    -- a permutation that leaves all in place is not part of the index function
    rw [IndexFn.permuted]
    split
    · rename_i still
      rw [of_decide_eq_true still, rank, found]
    · rw [IndexFn.apply, counts, List.map_map, unpermute_map (rank ▸ moves), rank]
      rw [counts, List.map_map] at found
      simp only [Option.bind_eq_bind, Option.bind_some, found]

theorem reshape (h : Finds a f b) (small : volume a.shape < 2 ^ 63) {new : List Nat} (made : b.reshape new = some c)
    (short : ∀ d ∈ new, d < 2 ^ 63) : Finds a (.reshape f (counts new)) c := by
  rw [ArrayValue.reshape] at made
  split at made
  · rename_i same
    cases made
    have size : volume new = volume b.shape := same.1.trans h.regular
    refine ⟨rfl, same.1.symm, size ▸ h.size, fun _ => short, fun idx inside => ?_⟩
    obtain ⟨inner, within, number⟩ := exists_position_eq (size ▸ position_lt inside)
    obtain ⟨o, found, there, equal⟩ := h.element inner within
    refine ⟨o, ?_, there, number ▸ equal⟩
    rw [IndexFn.apply, h.shape, flatOffset_counts inside.length_eq, ← number]
    simp only [Option.bind_eq_bind, Option.bind_some, indexAt_counts within (Nat.lt_of_le_of_lt h.size small), found]
  · cases made

theorem slice (h : Finds a f b) {is : List Int64} (made : b.index is = .ok (.array c)) :
    ∃ g, (ViewOp.index is).track f = some g ∧ Finds a g c := by
  obtain ⟨outer, rfl, within, shape, regular, element⟩ := ArrayValue.index_eq_array made
  rw [List.length_map] at within shape
  have fixed : (outer.map Int64.ofNat).map (fun i => AxisSlice.fix (.const i)) = (counts outer).map .fix := by
    rw [counts, List.map_map, List.map_map]
    rfl
  have left : (counts b.shape).drop outer.length = counts c.shape := by rw [counts, ← List.map_drop, shape, counts]
  refine ⟨.slice f ((counts outer).map .fix ++ (counts c.shape).map .full), ?_, ?_⟩
  · rw [ViewOp.track, h.shape, List.length_map, fixed, Option.bind_eq_bind, Option.bind_some, left]
  · have whole : volume b.shape = volume (b.shape.take outer.length) * volume c.shape := by
      rw [shape, ← ArrayValue.volume_append, List.take_append_drop]
    refine ⟨?_, regular, ?_, fun short d mem => ?_, fun idx inside => ?_⟩
    · rw [IndexFn.shape, shape_fixed]
    · have := Nat.le_mul_of_pos_left (volume c.shape) (volume_pos_of_inside within)
      have := h.size
      omega
    · rw [shape] at mem
      exact h.short short d (List.mem_of_mem_drop mem)
    · have joined : Inside (outer ++ idx) b.shape := by
        have both : Inside (outer ++ idx) (b.shape.take outer.length ++ c.shape) := List.rel_append within inside
        rwa [shape, List.take_append_drop] at both
      obtain ⟨o, found, there, equal⟩ := h.element _ joined
      refine ⟨o, ?_, there, (element idx inside).trans equal⟩
      rw [IndexFn.apply, unslice_fixed _ (by rw [length_counts, length_counts, inside.length_eq]), ← found, counts, counts,
        counts, List.map_append]

end Finds

/-! Steps of the evaluator -/

/-- The sizes of a reshape are counts. -/
theorem sizes_eq_ok {env : Env} {xs : List Operand} {sizes : List Int64} {new : List Nat} (values : xs.mapM env.word = .ok sizes)
    (counted : env.sizes xs = .ok new) : sizes = new.map Int64.ofNat ∧ ∀ d ∈ new, d < 2 ^ 63 := by
  have each := mapM_eq_ok.mp values
  have sized := mapM_eq_ok.mp counted
  clear values counted
  induction each generalizing new with
  | nil =>
    cases sized
    exact ⟨rfl, fun _ mem => absurd mem List.not_mem_nil⟩
  | @cons x n xs sizes value _ ih =>
    obtain _ | ⟨size, rest⟩ := sized
    obtain ⟨same, short⟩ := ih rest
    rw [Env.size, value, ok_bind] at size
    split at size
    · cases size
    · rename_i nonneg
      cases size
      rw [Int64.lt_iff_toInt_lt, Int64.toInt_zero, Int.not_lt] at nonneg
      have most : n.toInt < 2 ^ 63 := n.toInt_lt
      refine ⟨by rw [List.map_cons, ofNat_toNat_of_nonneg nonneg, same], fun d mem => ?_⟩
      rcases List.mem_cons.mp mem with rfl | mem
      · omega
      · exact short d mem

theorem Finds.track {a b c : ArrayValue} {f : IndexFn} (h : Finds a f b) (small : volume a.shape < 2 ^ 63) {op : ViewOp} {env : Env}
    {v : Name} {e : Exp} (bound : env.array v = .ok b) (taken : op.TakenBy env v e) (made : e.eval env = .ok [.array c]) :
    ∃ g, op.track f = some g ∧ Finds a g c := by
  cases taken with
  | rearrange perm =>
    rw [Exp.eval, bound, ok_bind] at made
    obtain ⟨c', moved, made⟩ := bind_eq_ok.mp made
    cases made
    exact ⟨_, rfl, h.permuted moved⟩
  | @reshape xs sizes values =>
    rw [Exp.eval, bound, ok_bind] at made
    obtain ⟨new, counted, made⟩ := bind_eq_ok.mp made
    obtain ⟨rfl, short⟩ := sizes_eq_ok values counted
    split at made
    · rename_i c' again
      cases made
      refine ⟨_, rfl, ?_⟩
      rw [List.map_map]
      exact h.reshape small again short
    · cases made
  | @index xs indices values =>
    rw [Exp.eval, bound, ok_bind, values, ok_bind] at made
    obtain ⟨x, part, made⟩ := bind_eq_ok.mp made
    cases made
    exact h.slice part

theorem Viewed.finds {a b c : ArrayValue} {ops : List ViewOp} (viewed : Viewed b ops c) (small : volume a.shape < 2 ^ 63) {f : IndexFn}
    (h : Finds a f b) : ∃ g, ops.foldlM ViewOp.track f = some g ∧ Finds a g c := by
  induction viewed generalizing f with
  | refl b => exact ⟨f, rfl, h⟩
  | step bound taken made _ ih =>
    obtain ⟨g, tracked, found⟩ := h.track small bound taken made
    obtain ⟨last, rest, found⟩ := ih found
    exact ⟨last, by rw [List.foldlM_cons, tracked, Option.bind_eq_bind, Option.bind_some, rest], found⟩

/-- However arrays are rearranged, reshaped and indexed, the index function that takes the same steps has the shape of the result
and leads each index of it to its element. -/
theorem ArrayValue.viewed_element {a b : ArrayValue} {ops : List ViewOp} (regular : a.Regular) (small : volume a.shape < 2 ^ 63)
    (viewed : Viewed a ops b) :
    ∃ f, ops.foldlM ViewOp.track (.rowMajor (a.shape.map fun d => .const (.ofNat d))) = some f ∧
      (∃ dims, f.shape = some dims ∧ ∀ env, List.Forall₂ (fun e d => e.eval env = some (Int64.ofNat d)) dims b.shape) ∧
      ((∀ d ∈ a.shape, d < 2 ^ 63) → ∀ d ∈ b.shape, (Int64.ofNat d).toInt = d) ∧
      ∀ is env, InBounds is b.shape → ∃ o c, f.offset is env = some (some o) ∧ 0 ≤ o ∧ b.index is = .ok (.scalar c) ∧
        a.data[o.toInt.toNat]? = some c := by
  obtain ⟨f, tracked, found⟩ := viewed.finds small (.rowMajor regular)
  refine ⟨f, tracked, ⟨_, found.shape, fun env => ?_⟩, fun short d mem => ?_, fun is env bounded => ?_⟩
  · rw [counts, List.forall₂_map_left_iff, List.forall₂_same]
    exact fun d _ => rfl
  · exact Int64.toInt_ofNat_of_lt (found.short short d mem)
  · obtain ⟨idx, rfl, inside, back⟩ := bounded.exists_inside
    obtain ⟨o, applied, there, equal⟩ := found.element idx inside
    have low : o < 2 ^ 63 := by
      rw [regular] at there
      omega
    have value : (Int64.ofNat o).toInt = o := Int64.toInt_ofNat_of_lt low
    refine ⟨.ofNat o, a.data[o], ?_, ?_, ArrayValue.index_of_inBounds bounded ?_, ?_⟩
    · rw [IndexFn.offset, List.map_map]
      exact congrArg (Option.map (IndexExpr.eval env)) applied
    · rw [Int64.le_iff_toInt_le, value, Int64.toInt_zero]
      omega
    · rw [← back, equal, Array.getElem?_eq_getElem there]
    · rw [value, Int.toNat_natCast, Array.getElem?_eq_getElem there]

/-- Two rows of three. -/
def sampleGrid : ArrayValue := ⟨.i64, [2, 3], #[.i64 0, .i64 1, .i64 2, .i64 3, .i64 4, .i64 5]⟩

/-- Its columns, one after another in rows of three, and the second of those rows. -/
def sampleSteps : List ViewOp := [.rearrange [1, 0], .reshape [2, 3], .index [1]]

theorem sampleGrid_viewed_element : ∃ b f o, Viewed sampleGrid sampleSteps b ∧
    sampleSteps.foldlM ViewOp.track (.rowMajor [.const 2, .const 3]) = some f ∧ f.offset [2] (fun _ => none) = some (some o) ∧
    b.index [2] = .ok (.scalar (.i64 5)) ∧ sampleGrid.data[o.toInt.toNat]? = some (.i64 5) := by
  let grid : Name := ⟨"grid", 0⟩
  let given (a : ArrayValue) : Env := Env.empty.bind grid (.array a)
  have regular : sampleGrid.Regular := rfl
  have row : Viewed ⟨.i64, [2, 3], #[.i64 0, .i64 3, .i64 1, .i64 4, .i64 2, .i64 5]⟩ [.index [1]]
      ⟨.i64, [3], #[.i64 4, .i64 2, .i64 5]⟩ :=
    @Viewed.step _ _ _ _ _ (given _) grid (.index grid [.word 1]) rfl (.index rfl) rfl (.refl _)
  have rows : Viewed ⟨.i64, [3, 2], #[.i64 0, .i64 3, .i64 1, .i64 4, .i64 2, .i64 5]⟩ [.reshape [2, 3], .index [1]]
      ⟨.i64, [3], #[.i64 4, .i64 2, .i64 5]⟩ :=
    @Viewed.step _ _ _ _ _ (given _) grid (.reshape [.word 2, .word 3] grid) rfl (.reshape rfl) rfl row
  have viewed : Viewed sampleGrid sampleSteps ⟨.i64, [3], #[.i64 4, .i64 2, .i64 5]⟩ :=
    @Viewed.step _ _ _ _ _ (given _) grid _ rfl (.rearrange _) rfl rows
  obtain ⟨f, tracked, _, _, element⟩ := ArrayValue.viewed_element regular (by decide) viewed
  obtain ⟨o, c, offset, _, read, there⟩ := element [2] (fun _ => none) (.cons (by decide) .nil)
  have five : c = .i64 5 := by
    cases read
    rfl
  exact ⟨_, f, o, viewed, tracked, offset, five ▸ read, five ▸ there⟩

end ArrayKernels
