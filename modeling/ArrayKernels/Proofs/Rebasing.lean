import ArrayKernels.Index.ThreadPlace
import Mathlib.Algebra.Group.Int.Defs

/-! Rebased index functions. The element that a thread had at offset `o` of its own block is at
`o * threads + thread` of the block that all threads share, so that a thread that exists stays
inside the shared block. -/
namespace ArrayKernels

/-- Every step of the chain hands an index of full length to the next. -/
def IndexFn.Ranked : IndexFn → Nat → Prop
  | rowMajor dims, n => n = dims.length
  | permute base perm, _ => base.Ranked perm.length
  | reshape base _, _ => ∀ dims, base.shape = some dims → base.Ranked dims.length
  | slice base dims, _ => base.Ranked dims.length

namespace IndexExpr

theorem times_one (x : IndexExpr) : x.times (const 1) = x := by
  cases x with
  | const a => simp [times]
  | var v => simp [times]
  | add a b => simp [times]
  | sub a b => simp [times]
  | mul a b => simp [times]
  | div a b => simp [times]
  | mod a b => simp [times]

theorem zero_times (x : IndexExpr) : (const 0).times x = const 0 := by
  cases x <;> simp [times]

theorem zero_plus (x : IndexExpr) : (const 0).plus x = x := by
  cases x <;> simp [plus]

end IndexExpr

theorem length_unpermute {perm : List Nat} {idx out : List IndexExpr} (h : unpermute perm idx = some out) :
    out.length = perm.length := by
  have fold (is : List Nat) (start : List IndexExpr)
      (h : is.foldlM (fun acc i => do
        let p ← perm[i]?
        let x ← idx[i]?
        if p < acc.length then some (acc.set p x) else none) start = some out) : out.length = start.length := by
    induction is generalizing start with
    | nil =>
      cases h
      rfl
    | cons i is ih =>
      rw [List.foldlM_cons, Option.bind_eq_bind, Option.bind_eq_some_iff] at h
      obtain ⟨next, step, rest⟩ := h
      simp only [Option.bind_eq_bind, Option.bind_eq_some_iff] at step
      obtain ⟨p, _, x, _, step⟩ := step
      split at step
      · cases step
        rw [ih _ rest, List.length_set]
      · cases step
  rw [fold _ _ h, List.length_replicate]

theorem length_peel {flat rest : IndexExpr} {dims inner : List IndexExpr} (h : peel flat dims = some (rest, inner)) :
    inner.length = dims.length := by
  induction dims generalizing rest inner with
  | nil =>
    cases h
    rfl
  | cons d dims ih =>
    simp only [peel, Option.bind_eq_bind, Option.bind_eq_some_iff] at h
    obtain ⟨⟨left, tail⟩, peeled, q, _, r, _, made⟩ := h
    cases made
    rw [List.length_cons, List.length_cons, ih peeled]

theorem length_indexAt {flat : IndexExpr} {dims out : List IndexExpr} (h : indexAt flat dims = some out) :
    out.length = dims.length := by
  cases dims with
  | nil =>
    cases h
    rfl
  | cons d dims =>
    rw [indexAt, Option.map_eq_some_iff] at h
    obtain ⟨⟨rest, inner⟩, peeled, rfl⟩ := h
    rw [List.length_cons, List.length_cons, length_peel peeled]

theorem length_unslice (dims : List AxisSlice) (idx : List IndexExpr) : (unslice dims idx).length = dims.length := by
  induction dims generalizing idx with
  | nil => rfl
  | cons d dims ih => cases d <;> rw [unslice, List.length_cons, List.length_cons, ih]

theorem unslice_full {dims idx : List IndexExpr} (full : idx.length = dims.length) :
    unslice (dims.map .full) idx = idx := by
  induction dims generalizing idx with
  | nil => exact (List.length_eq_zero_iff.mp full).symm
  | cons d dims ih =>
    obtain _ | ⟨i, idx⟩ := idx
    · cases full
    · rw [List.map_cons, AxisSlice.full, unslice, List.headD_cons, List.tail_cons, ih (Nat.succ.inj full),
        IndexExpr.times_one, IndexExpr.zero_plus]

/-- Moving the first dimension behind all others. -/
theorem unpermute_rotate (t : IndexExpr) (idx : List IndexExpr) :
    unpermute (idx.length :: List.range idx.length) (t :: idx) = some (idx ++ [t]) := by
  -- after the thread and `j` more indices are in their places
  have placed (j : Nat) (most : j ≤ idx.length) : ((List.range j).map Nat.succ).foldlM
      (fun acc i => do
        let p ← (idx.length :: List.range idx.length)[i]?
        let x ← (t :: idx)[i]?
        if p < acc.length then some (acc.set p x) else none)
      (List.replicate idx.length (.const 0) ++ [t]) =
      some (idx.take j ++ (List.replicate (idx.length - j) (.const 0) ++ [t])) := by
    induction j with
    | zero => simp
    | succ j ih =>
      obtain ⟨m, left⟩ : ∃ m, idx.length - j = m + 1 := ⟨idx.length - j - 1, by omega⟩
      have front : (idx.take j).length = j := by rw [List.length_take]; omega
      rw [List.range_succ, List.map_append, List.foldlM_append, ih (by omega), left, List.replicate_succ]
      simp only [List.map_cons, List.map_nil, List.foldlM_cons, List.foldlM_nil, Option.bind_eq_bind, Option.bind_some,
        Nat.succ_eq_add_one, List.getElem?_cons_succ, List.getElem?_range (show j < idx.length by omega),
        List.getElem?_eq_getElem (show j < idx.length by omega)]
      rw [if_pos (by simp; omega), List.set_append_right _ _ (by omega), front, Nat.sub_self, List.cons_append,
        List.set_cons_zero, show idx.length - (j + 1) = m by omega, List.take_succ_eq_append_getElem (by omega),
        List.append_assoc]
      rfl
  rw [unpermute, List.length_cons, List.length_range, List.range_succ_eq_map, List.foldlM_cons]
  have first : (List.replicate (idx.length + 1) (IndexExpr.const 0)).set idx.length t =
      List.replicate idx.length (.const 0) ++ [t] := by
    rw [List.replicate_succ', List.set_append_right _ _ (by simp), List.length_replicate, Nat.sub_self]
    rfl
  simp only [List.getElem?_cons_zero, Option.bind_eq_bind, Option.bind_some, List.length_replicate, Nat.lt_succ_self,
    if_true, first]
  have all := placed idx.length (Nat.le_refl _)
  rwa [List.take_length, Nat.sub_self, List.replicate_zero, List.nil_append] at all

theorem flatOffset_concat {dims idx : List IndexExpr} (full : idx.length = dims.length) (d i : IndexExpr) :
    flatOffset (dims ++ [d]) (idx ++ [i]) = ((flatOffset dims idx).times d).plus i := by
  rw [flatOffset, List.zip_append full.symm, flatOffset]
  obtain _ | ⟨d₁, dims⟩ := dims
  · obtain rfl := List.length_eq_zero_iff.mp full
    simp [IndexExpr.zero_times, IndexExpr.zero_plus]
  · obtain _ | ⟨i₁, idx⟩ := idx
    · cases full
    · simp

namespace ThreadPlace

variable (p : ThreadPlace)

theorem shape_layout (dims : List IndexExpr) : (p.layout dims).shape = some dims := by
  have kept : (dims.map AxisSlice.full).filterMap AxisSlice.length = dims := by
    induction dims with
    | nil => rfl
    | cons d dims ih => rw [List.map_cons, List.filterMap_cons, ih]; rfl
  rw [layout, IndexFn.shape, List.filterMap_cons]
  simp only [AxisSlice.length]
  rw [kept]

theorem apply_layout {dims idx : List IndexExpr} (full : idx.length = dims.length) :
    (p.layout dims).apply idx = some (((flatOffset dims idx).times p.threads).plus p.thread) := by
  rw [layout, IndexFn.apply, unslice, unslice_full full, ← flatOffset_concat full, IndexFn.permuted]
  split
  · rename_i still
    -- only the thread dimension is there, and it stays in place
    obtain _ | ⟨d, dims⟩ := dims
    · obtain rfl := List.length_eq_zero_iff.mp full
      rfl
    · have first := congrArg List.head? (of_decide_eq_true still)
      simp [List.head?_range] at first
  · rw [IndexFn.apply, ← full, unpermute_rotate]
    rfl

theorem shape_rebase (f : IndexFn) : (p.rebase f).shape = f.shape := by
  induction f with
  | rowMajor dims => exact p.shape_layout dims
  | permute base perm ih =>
    have same : (base.rebase (p.layout base.bottomShape)).shape = base.shape := ih
    show IndexFn.shape (.permute (base.rebase (p.layout base.bottomShape)) perm) = _
    rw [IndexFn.shape, IndexFn.shape, same]
  | reshape base dims ih => rfl
  | slice base dims ih => rfl

/-- The law of rebasing. -/
theorem apply_rebase (f : IndexFn) {idx : List IndexExpr} (ranked : f.Ranked idx.length) :
    (p.rebase f).apply idx = (f.apply idx).map fun o => (o.times p.threads).plus p.thread := by
  induction f generalizing idx with
  | rowMajor dims => exact p.apply_layout ranked
  | permute base perm ih =>
    show IndexFn.apply (.permute (base.rebase (p.layout base.bottomShape)) perm) idx = _
    rw [IndexFn.apply, IndexFn.apply]
    cases moved : unpermute perm idx with
    | none => rfl
    | some inner => exact ih (length_unpermute moved ▸ ranked)
  | reshape base dims ih =>
    show IndexFn.apply (.reshape (base.rebase (p.layout base.bottomShape)) dims) idx = _
    have same : (base.rebase (p.layout base.bottomShape)).shape = base.shape := p.shape_rebase base
    rw [IndexFn.apply, IndexFn.apply, same]
    cases shape : base.shape with
    | none => rfl
    | some sizes =>
      cases at' : indexAt (flatOffset dims idx) sizes with
      | none => simp [at']
      | some inner =>
        simp only [at', Option.bind_eq_bind, Option.bind_some]
        exact ih (length_indexAt at' ▸ ranked sizes shape)
  | slice base dims ih => exact ih ((length_unslice dims idx).symm ▸ ranked)

end ThreadPlace

/-! Values of rebased offsets -/

theorem Word.fit_of_range {n : Int} (low : -2 ^ 63 ≤ n) (high : n < 2 ^ 63) : Word.fit n = some (Int64.ofInt n) := by
  have least : Int64.minValue.toInt = -2 ^ 63 := by decide
  have most : Int64.maxValue.toInt = 2 ^ 63 - 1 := by decide
  rw [fit, if_pos (by rw [least, most]; omega)]

theorem toInt_ofInt_of_range {n : Int} (low : 0 ≤ n) (high : n < 2 ^ 63) : (Int64.ofInt n).toInt = n :=
  Int64.toInt_ofInt_of_le (by omega) high

namespace IndexExpr

variable {x y : IndexExpr} {env : Name → Option Int64} {a b : Int64}

theorem eval_times (left : x.eval env = some a) (right : y.eval env = some b) (low : -2 ^ 63 ≤ a.toInt * b.toInt)
    (high : a.toInt * b.toInt < 2 ^ 63) : (x.times y).eval env = some (Int64.ofInt (a.toInt * b.toInt)) := by
  have product : Int64.ofInt (a.toInt * b.toInt) = a * b := by rw [Int64.ofInt_mul, Int64.ofInt_toInt, Int64.ofInt_toInt]
  unfold times
  split
  · cases left
    cases right
    rw [product]
    rfl
  · split
    · rename_i zero
      obtain rfl | rfl := zero
      · cases left
        simp [eval]
      · cases right
        simp [eval]
    · split
      · rename_i one
        subst one
        cases left
        rw [product, right, Int64.one_mul]
      · split
        · rename_i one
          subst one
          cases right
          rw [product, left, Int64.mul_one]
        · rw [eval, left, right]
          exact Word.fit_of_range low high

theorem eval_plus (left : x.eval env = some a) (right : y.eval env = some b) (low : -2 ^ 63 ≤ a.toInt + b.toInt)
    (high : a.toInt + b.toInt < 2 ^ 63) : (x.plus y).eval env = some (Int64.ofInt (a.toInt + b.toInt)) := by
  have sum : Int64.ofInt (a.toInt + b.toInt) = a + b := by rw [Int64.ofInt_add, Int64.ofInt_toInt, Int64.ofInt_toInt]
  unfold plus
  split
  · cases left
    cases right
    rw [sum]
    rfl
  · split
    · rename_i zero
      subst zero
      cases left
      rw [sum, right, Int64.zero_add]
    · split
      · rename_i zero
        subst zero
        cases right
        rw [sum, left, Int64.add_zero]
      · rw [eval, left, right]
        exact Word.fit_of_range low high

end IndexExpr

/-- The value of a rebased offset. -/
theorem ThreadPlace.offset_rebase_eq {p : ThreadPlace} {f : IndexFn} {idx : List Int64} {env : Name → Option Int64} {o t n : Int64}
    (ranked : f.Ranked idx.length) (thread : p.thread.eval env = some t) (threads : p.threads.eval env = some n)
    (at' : f.offset idx env = some (some o)) (scaled : 0 ≤ o.toInt * n.toInt) (low : 0 ≤ t.toInt)
    (room : o.toInt * n.toInt + t.toInt < 2 ^ 63) :
    (p.rebase f).offset idx env = some (some (.ofInt (o.toInt * n.toInt + t.toInt))) := by
  obtain ⟨x, found, value⟩ : ∃ x, f.apply (idx.map .const) = some x ∧ x.eval env = some o := by
    rw [IndexFn.offset, Option.map_eq_some_iff] at at'
    exact at'
  have product := IndexExpr.eval_times value threads (by omega) (by omega)
  have productValue := toInt_ofInt_of_range scaled (by omega)
  have moved := IndexExpr.eval_plus product thread (by omega) (by omega)
  rw [productValue] at moved
  rw [IndexFn.offset, p.apply_rebase f (by rwa [List.length_map]), found]
  exact congrArg some moved

/-- An access inside the thread's own block becomes one inside the shared block. -/
theorem ThreadPlace.offset_rebase {p : ThreadPlace} {f : IndexFn} {idx : List Int64} {env : Name → Option Int64}
    {o t n : Int64} {cells : Int} (ranked : f.Ranked idx.length) (thread : p.thread.eval env = some t)
    (threads : p.threads.eval env = some n) (exists' : 0 ≤ t.toInt ∧ t.toInt < n.toInt)
    (at' : f.offset idx env = some (some o)) (inside : 0 ≤ o.toInt ∧ o.toInt < cells)
    (room : n.toInt * cells ≤ 2 ^ 63) :
    ∃ o', (p.rebase f).offset idx env = some (some o') ∧ 0 ≤ o'.toInt ∧ o'.toInt < n.toInt * cells := by
  have product : 0 ≤ o.toInt * n.toInt := Int.mul_nonneg inside.1 (by omega)
  have below : o.toInt * n.toInt + n.toInt ≤ n.toInt * cells := by
    have step : o.toInt * n.toInt + n.toInt = n.toInt * (o.toInt + 1) := by rw [Int.mul_add, Int.mul_comm, Int.mul_one]
    rw [step]
    exact Int.mul_le_mul_of_nonneg_left (by omega) (by omega)
  refine ⟨.ofInt (o.toInt * n.toInt + t.toInt),
    ThreadPlace.offset_rebase_eq ranked thread threads at' product exists'.1 (by omega), ?_⟩
  rw [toInt_ofInt_of_range (by omega) (by omega)]
  omega

end ArrayKernels
