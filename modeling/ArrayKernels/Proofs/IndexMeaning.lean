import ArrayKernels.Proofs.ArrayViews

/-! The meaning of index functions. Where sizes, starts and strides have values, a well-formed index function leads every index of
its shape to one element of the block, and the symbolic offset has the number of that element as its value. -/
namespace ArrayKernels

variable {env : Name → Option Int64}

/-! Values of expressions -/

namespace IndexExpr

/-- The expression has the number as its value. -/
def HasValue (env : Name → Option Int64) (e : IndexExpr) (n : Int) : Prop := ∃ w, e.eval env = some w ∧ w.toInt = n

section
variable {e x y : IndexExpr} {a b : Int} {n d : Nat}

theorem HasValue.unique (h : e.HasValue env a) (h' : e.HasValue env b) : a = b := by
  obtain ⟨v, left, rfl⟩ := h
  obtain ⟨w, right, rfl⟩ := h'
  rw [Option.some.inj (left.symm.trans right)]

theorem HasValue.high (h : e.HasValue env a) : a < 2 ^ 63 := by
  obtain ⟨w, _, rfl⟩ := h
  exact w.toInt_lt

theorem hasValue_const (w : Int64) : (const w).HasValue env w.toInt := ⟨w, rfl, rfl⟩

theorem HasValue.lt (h : e.HasValue env n) : n < 2 ^ 63 := by
  have := h.high
  omega

/-- A count is the value of its word. -/
theorem hasValue_natCast : e.HasValue env n ↔ e.eval env = some (.ofNat n) ∧ n < 2 ^ 63 := by
  constructor
  · intro h
    refine ⟨?_, h.lt⟩
    obtain ⟨w, value, same⟩ := h
    have number := @ofNat_toNat_of_nonneg w (by omega)
    rw [same, Int.toNat_natCast] at number
    rw [value, number]
  · rintro ⟨value, small⟩
    exact ⟨_, value, Int64.toInt_ofNat_of_lt small⟩

theorem HasValue.times (left : x.HasValue env a) (right : y.HasValue env b) (low : -2 ^ 63 ≤ a * b) (high : a * b < 2 ^ 63) :
    (x.times y).HasValue env (a * b) := by
  obtain ⟨v, left, rfl⟩ := left
  obtain ⟨w, right, rfl⟩ := right
  exact ⟨_, eval_times left right low high, Int64.toInt_ofInt_of_le low high⟩

theorem HasValue.plus (left : x.HasValue env a) (right : y.HasValue env b) (low : -2 ^ 63 ≤ a + b) (high : a + b < 2 ^ 63) :
    (x.plus y).HasValue env (a + b) := by
  obtain ⟨v, left, rfl⟩ := left
  obtain ⟨w, right, rfl⟩ := right
  exact ⟨_, eval_plus left right low high, Int64.toInt_ofInt_of_le low high⟩

theorem HasValue.quotient (left : x.HasValue env n) (right : y.HasValue env d) (filled : 0 < d) :
    ∃ q, x.quotient y = some q ∧ q.HasValue env (n / d : Nat) := by
  obtain ⟨leftValue, small⟩ := hasValue_natCast.mp left
  obtain ⟨rightValue, short⟩ := hasValue_natCast.mp right
  have less : n / d < 2 ^ 63 := Nat.lt_of_le_of_lt (Nat.div_le_self n d) small
  unfold IndexExpr.quotient
  split
  · cases leftValue
    cases rightValue
    refine ⟨.const (.ofNat (n / d)), ?_, hasValue_natCast.mpr ⟨rfl, less⟩⟩
    rw [if_neg (ofNat_ne_zero short filled), word_quotient_ofNat small short filled, Option.map_some]
  · split
    · rename_i one
      subst one
      have unit : d = 1 := Int.natCast_inj.mp (right.unique (hasValue_const 1))
      exact ⟨x, rfl, by simpa [unit] using left⟩
    · refine ⟨_, rfl, hasValue_natCast.mpr ⟨?_, less⟩⟩
      simp [eval, leftValue, rightValue, word_quotient_ofNat small short filled]

theorem HasValue.remainder (left : x.HasValue env n) (right : y.HasValue env d) (filled : 0 < d) :
    ∃ r, x.remainder y = some r ∧ r.HasValue env (n % d : Nat) := by
  obtain ⟨leftValue, small⟩ := hasValue_natCast.mp left
  obtain ⟨rightValue, short⟩ := hasValue_natCast.mp right
  have less : n % d < 2 ^ 63 := Nat.lt_of_le_of_lt (Nat.mod_le n d) small
  unfold IndexExpr.remainder
  split
  · cases leftValue
    cases rightValue
    refine ⟨.const (.ofNat (n % d)), ?_, hasValue_natCast.mpr ⟨rfl, less⟩⟩
    rw [if_neg (ofNat_ne_zero short filled), word_remainder_ofNat small short filled, Option.map_some]
  · split
    · rename_i one
      subst one
      have unit : d = 1 := Int.natCast_inj.mp (right.unique (hasValue_const 1))
      exact ⟨_, rfl, by simpa [unit, Nat.mod_one] using @hasValue_const env 0⟩
    · refine ⟨_, rfl, hasValue_natCast.mpr ⟨?_, less⟩⟩
      simp [eval, leftValue, rightValue, word_remainder_ofNat small short filled]

end

end IndexExpr

/-- The expressions have the counts as their values. -/
def HaveValues (env : Name → Option Int64) (es : List IndexExpr) (ns : List Nat) : Prop :=
  List.Forall₂ (fun e (n : Nat) => e.HasValue env n) es ns

section
variable {es xs inner : List IndexExpr} {ns ms dims idx : List Nat} {flat acc : IndexExpr} {n t : Nat}

theorem HaveValues.unique (h : HaveValues env es ns) (h' : HaveValues env es ms) : ns = ms := by
  induction h generalizing ms with
  | nil => exact (List.forall₂_nil_left_iff.mp h').symm
  | cons value _ ih =>
    obtain ⟨m, ms, value', rest, rfl⟩ := List.forall₂_cons_left_iff.mp h'
    rw [Int.natCast_inj.mp (value.unique value'), ih rest]

theorem HaveValues.lt (h : HaveValues env es ns) : ∀ n ∈ ns, n < 2 ^ 63 := by
  intro n mem
  obtain ⟨e, _, value⟩ := exists_of_mem_right h mem
  exact value.lt

/-! Row-major offsets -/

theorem HaveValues.foldl (sizes : HaveValues env es dims) (values : HaveValues env xs idx) (inside : Inside idx dims)
    (start : acc.HasValue env n) (small : n * volume dims + position idx dims < 2 ^ 63) :
    ((es.zip xs).foldl (fun acc di => (acc.times di.1).plus di.2) acc).HasValue env
      (n * volume dims + position idx dims : Nat) := by
  induction inside generalizing es xs acc n with
  | nil =>
    cases sizes
    simpa [volume, position] using start
  | @cons i d idx dims below rest ih =>
    obtain _ | ⟨size, sizes⟩ := sizes
    obtain _ | ⟨value, values⟩ := values
    rw [shift_position_cons] at small ⊢
    have fits : n * d + i < 2 ^ 63 := by
      have := Nat.le_mul_of_pos_right (n * d + i) (volume_pos_of_inside rest)
      omega
    have scaled := start.times size (by omega) (by rw [← Int.natCast_mul]; omega)
    have next := scaled.plus value (by omega) (by rw [← Int.natCast_mul]; omega)
    rw [← Int.natCast_mul, ← Int.natCast_add] at next
    exact (ih sizes values next small :)

theorem HaveValues.flatOffset (sizes : HaveValues env es dims) (values : HaveValues env xs idx) (inside : Inside idx dims)
    (small : volume dims < 2 ^ 63) : (flatOffset es xs).HasValue env (position idx dims : Nat) := by
  have below := position_lt inside
  cases inside with
  | nil =>
    cases sizes
    exact IndexExpr.hasValue_const 0
  | cons _ rest =>
    obtain _ | ⟨size, sizes⟩ := sizes
    obtain _ | ⟨value, values⟩ := values
    exact HaveValues.foldl sizes values rest value (by rw [position] at below; omega)

/-- Peeling off the inner dimensions of a flat offset gives back the inner indices. -/
theorem HaveValues.peel (sizes : HaveValues env es dims) (inside : Inside idx dims)
    (value : flat.HasValue env (t * volume dims + position idx dims : Nat)) :
    ∃ rest inner, peel flat es = some (rest, inner) ∧ rest.HasValue env t ∧ HaveValues env inner idx := by
  induction inside generalizing es t with
  | nil =>
    cases sizes
    exact ⟨flat, [], rfl, by simpa [volume, position] using value, .nil⟩
  | @cons i d idx dims below rest ih =>
    obtain _ | ⟨size, sizes⟩ := sizes
    rw [shift_position_cons] at value
    obtain ⟨left, tail, peeled, leftValue, tailValues⟩ := ih sizes value
    obtain ⟨q, divided, quotient⟩ := leftValue.quotient size (by omega)
    obtain ⟨r, reduced, remainder⟩ := leftValue.remainder size (by omega)
    have outer : (t * d + i) / d = t := by
      rw [Nat.mul_comm, Nat.mul_add_div (by omega), Nat.div_eq_of_lt below, Nat.add_zero]
    have here : (t * d + i) % d = i := by rw [Nat.mul_comm, Nat.mul_add_mod, Nat.mod_eq_of_lt below]
    rw [outer] at quotient
    rw [here] at remainder
    exact ⟨q, r :: tail, by simp [ArrayKernels.peel, peeled, divided, reduced], quotient, .cons remainder tailValues⟩

theorem HaveValues.indexAt (sizes : HaveValues env es dims) (inside : Inside idx dims)
    (value : flat.HasValue env (position idx dims : Nat)) :
    ∃ inner, indexAt flat es = some inner ∧ HaveValues env inner idx := by
  cases inside with
  | nil =>
    cases sizes
    exact ⟨[], rfl, .nil⟩
  | cons below rest =>
    obtain _ | ⟨size, sizes⟩ := sizes
    obtain ⟨left, tail, peeled, leftValue, tailValues⟩ := HaveValues.peel sizes rest value
    exact ⟨left :: tail, by simp [ArrayKernels.indexAt, peeled], .cons leftValue tailValues⟩

end

/-! Permuted and sliced indices -/

section
variable {perm dims : List Nat} {x : Nat → Nat}

theorem HaveValues.unpermute {xs : List IndexExpr} (values : HaveValues env xs (perm.map x)) (moves : perm.Perm (List.range perm.length)) :
    ∃ inner, unpermute perm xs = some inner ∧ HaveValues env inner ((List.range perm.length).map x) := by
  have : Nonempty IndexExpr := ⟨.const 0⟩
  have full : xs.length = perm.length := by rw [values.length_eq, List.length_map]
  obtain ⟨y, rfl⟩ := exists_eq_map (moves.nodup_iff.mpr List.nodup_range) full
  refine ⟨_, unpermute_map moves y, ?_⟩
  simp only [HaveValues, List.forall₂_map_left_iff, List.forall₂_map_right_iff, List.forall₂_same] at values ⊢
  exact fun p mem => values p (moves.mem_iff.mpr mem)

theorem HaveValues.permuted {es : List IndexExpr} (sizes : HaveValues env es dims) (inside : ∀ p ∈ perm, p < dims.length) :
    ∃ es', perm.mapM (fun p => es[p]?) = some es' ∧ HaveValues env es' (perm.map fun p => dims.getD p 0) := by
  induction perm with
  | nil => exact ⟨[], rfl, .nil⟩
  | cons p perm ih =>
    obtain ⟨here, later⟩ := List.forall_mem_cons.mp inside
    obtain ⟨es', moved, values⟩ := ih later
    have there : p < es.length := by rwa [sizes.length_eq]
    refine ⟨es[p] :: es', by simp [List.mapM_cons, there, moved], .cons ?_ values⟩
    have value := sizes.get there here
    simpa [here] using value

theorem inside_permuted (moves : perm.Perm (List.range dims.length)) (h : Inside ((List.range dims.length).map x) dims) :
    Inside (perm.map x) (perm.map fun p => dims.getD p 0) := by
  have each : Inside ((List.range dims.length).map x) ((List.range dims.length).map fun p => dims.getD p 0) := by
    rwa [map_range_getD]
  simp only [Inside, List.forall₂_map_left_iff, List.forall₂_map_right_iff, List.forall₂_same] at each ⊢
  exact fun p mem => each p (moves.mem_iff.mp mem)

end

/-- What a slice keeps of a dimension of size `d` lies inside the dimension. -/
inductive AxisSlice.Fits (env : Name → Option Int64) : AxisSlice → Nat → Prop
  | fix {i : IndexExpr} {n d : Nat} (value : i.HasValue env n) (below : n < d) : Fits env (.fix i) d
  | range {start len stride : IndexExpr} {l d : Nat} (length : len.HasValue env l)
    (within : ∀ i < l, ∃ s t : Int, start.HasValue env s ∧ stride.HasValue env t ∧ 0 ≤ s + i * t ∧ s + i * t < d) :
    Fits env (.range start len stride) d

/-- The slices lead the first index to the second. -/
inductive Sliced (env : Name → Option Int64) : List AxisSlice → List Nat → List Nat → Prop
  | nil : Sliced env [] [] []
  | fix {i : IndexExpr} {n : Nat} {axes : List AxisSlice} {idx inner : List Nat} (value : i.HasValue env n)
    (rest : Sliced env axes idx inner) : Sliced env (.fix i :: axes) idx (n :: inner)
  | range {start len stride : IndexExpr} {s t : Int} {l i n : Nat} {axes : List AxisSlice} {idx inner : List Nat}
    (starts : start.HasValue env s) (length : len.HasValue env l) (strides : stride.HasValue env t) (first : 0 ≤ s) (below : i < l)
    (place : (n : Int) = s + i * t) (small : n < 2 ^ 63) (rest : Sliced env axes idx inner) :
    Sliced env (.range start len stride :: axes) (i :: idx) (n :: inner)

namespace Sliced

variable {axes : List AxisSlice} {idx inner dims new : List Nat}

theorem length_eq (h : Sliced env axes idx inner) : inner.length = axes.length := by
  induction h with
  | nil => rfl
  | fix _ _ ih => simp [ih]
  | range _ _ _ _ _ _ _ _ ih => simp [ih]

theorem unslice {xs : List IndexExpr} (h : Sliced env axes idx inner) (values : HaveValues env xs idx) :
    HaveValues env (unslice axes xs) inner := by
  induction h generalizing xs with
  | nil => exact .nil
  | fix value _ ih => exact .cons value (ih values)
  | range starts _ strides first _ place small _ ih =>
    obtain _ | ⟨value, values⟩ := values
    have high := starts.high
    have scaled := value.times strides (by omega) (by omega)
    have moved := starts.plus scaled (by omega) (by omega)
    exact .cons (place ▸ moved) (ih values)

/-- A slice that fits leads every index of its shape into the dimensions. -/
theorem exists_inside (fits : List.Forall₂ (AxisSlice.Fits env) axes dims) (short : ∀ d ∈ dims, d < 2 ^ 63)
    (lengths : HaveValues env (axes.filterMap AxisSlice.length) new) (inside : Inside idx new) :
    ∃ inner, Sliced env axes idx inner ∧ Inside inner dims := by
  induction fits generalizing idx new with
  | nil =>
    cases lengths
    cases inside
    exact ⟨[], .nil, .nil⟩
  | cons fit _ ih =>
    obtain ⟨here, later⟩ := List.forall_mem_cons.mp short
    cases fit with
    | @fix i n d value below =>
      obtain ⟨inner, sliced, within⟩ := ih later lengths inside
      exact ⟨n :: inner, .fix value sliced, .cons below within⟩
    | @range start len stride l d length within =>
      obtain _ | ⟨length', lengths⟩ := lengths
      obtain _ | @⟨i, _, idx, _, below, inside⟩ := inside
      cases Int.natCast_inj.mp (length.unique length')
      obtain ⟨inner, sliced, more⟩ := ih later lengths inside
      obtain ⟨s, t, starts, strides, low, high⟩ := within _ below
      -- the first position of the range is in it as well
      obtain ⟨s', t', starts', _, first, _⟩ := within 0 (by omega)
      cases starts.unique starts'
      refine ⟨(s + i * t).toNat :: inner, .range starts length strides (by omega) below ?_ ?_ sliced, .cons ?_ more⟩
      · exact Int.toNat_of_nonneg low
      · omega
      · omega

end Sliced

theorem InBounds.nonneg {is : List Int64} {dims : List Nat} (h : InBounds is dims) : ∀ i ∈ is, 0 ≤ i := by
  intro i mem
  obtain ⟨d, _, bounds⟩ := exists_of_mem_right h.flip mem
  exact bounds.1

/-! Index functions -/

namespace IndexFn

/-- The index function is well-formed, and its shape has the sizes. Sizes have values that are not negative, permutations fit the
base, a reshape keeps the number of elements, slices stay inside the base, and all numbers of elements fit the word. -/
inductive WellFormed (env : Name → Option Int64) : IndexFn → List Nat → Prop
  | rowMajor {es : List IndexExpr} {dims : List Nat} (sizes : HaveValues env es dims) (small : volume dims < 2 ^ 63) :
    WellFormed env (.rowMajor es) dims
  | permute {f : IndexFn} {dims perm : List Nat} (base : WellFormed env f dims) (moves : perm.Perm (List.range dims.length)) :
    WellFormed env (.permute f perm) (perm.map fun p => dims.getD p 0)
  | reshape {f : IndexFn} {es : List IndexExpr} {dims new : List Nat} (base : WellFormed env f dims) (sizes : HaveValues env es new)
    (same : volume new = volume dims) : WellFormed env (.reshape f es) new
  | slice {f : IndexFn} {axes : List AxisSlice} {dims new : List Nat} (base : WellFormed env f dims)
    (fits : List.Forall₂ (AxisSlice.Fits env) axes dims) (lengths : HaveValues env (axes.filterMap AxisSlice.length) new)
    (small : volume new < 2 ^ 63) : WellFormed env (.slice f axes) new

/-- The index function leads an index of its shape to the element with the number. -/
inductive Leads (env : Name → Option Int64) : IndexFn → List Nat → Nat → Prop
  | rowMajor {es : List IndexExpr} {dims idx : List Nat} (sizes : HaveValues env es dims) (small : volume dims < 2 ^ 63)
    (inside : Inside idx dims) : Leads env (.rowMajor es) idx (position idx dims)
  | permute {f : IndexFn} {perm : List Nat} {o : Nat} {x : Nat → Nat} (moves : perm.Perm (List.range perm.length))
    (base : Leads env f ((List.range perm.length).map x) o) : Leads env (.permute f perm) (perm.map x) o
  | reshape {f : IndexFn} {es es' : List IndexExpr} {dims dims' idx idx' : List Nat} {o : Nat} (sizes : HaveValues env es dims)
    (small : volume dims < 2 ^ 63) (inside : Inside idx dims) (shape : f.shape = some es') (sizes' : HaveValues env es' dims')
    (inside' : Inside idx' dims') (number : position idx dims = position idx' dims') (base : Leads env f idx' o) :
    Leads env (.reshape f es) idx o
  | slice {f : IndexFn} {axes : List AxisSlice} {idx inner : List Nat} {o : Nat} (sliced : Sliced env axes idx inner)
    (base : Leads env f inner o) : Leads env (.slice f axes) idx o

variable {f : IndexFn} {dims base idx : List Nat} {o : Nat}

theorem WellFormed.shape_eq (h : f.WellFormed env dims) : ∃ es, f.shape = some es ∧ HaveValues env es dims := by
  induction h with
  | rowMajor sizes _ => exact ⟨_, rfl, sizes⟩
  | permute _ moves ih =>
    obtain ⟨es, shape, sizes⟩ := ih
    obtain ⟨es', moved, values⟩ := sizes.permuted fun p mem => List.mem_range.mp (moves.mem_iff.mp mem)
    exact ⟨es', by simp [IndexFn.shape, shape, moved], values⟩
  | reshape _ sizes _ _ => exact ⟨_, rfl, sizes⟩
  | slice _ _ lengths _ _ => exact ⟨_, rfl, lengths⟩

theorem WellFormed.small (h : f.WellFormed env dims) : volume dims < 2 ^ 63 := by
  induction h with
  | rowMajor _ small => exact small
  | permute _ moves ih => rwa [volume_map_getD moves]
  | reshape _ _ same ih => rwa [same]
  | slice _ _ _ small _ => exact small

theorem WellFormed.bottom (h : f.WellFormed env dims) : ∃ base, HaveValues env f.bottomShape base := by
  induction h with
  | rowMajor sizes _ => exact ⟨_, sizes⟩
  | permute _ _ ih => exact ih
  | reshape _ _ _ ih => exact ih
  | slice _ _ _ _ ih => exact ih

theorem WellFormed.exists_leads (h : f.WellFormed env dims) (inside : Inside idx dims) : ∃ o, f.Leads env idx o := by
  induction h generalizing idx with
  | rowMajor sizes small => exact ⟨_, .rowMajor sizes small inside⟩
  | @permute f dims perm _ moves ih =>
    have rank : perm.length = dims.length := by rw [moves.length_eq, List.length_range]
    have full : idx.length = perm.length := by rw [inside.length_eq, List.length_map]
    obtain ⟨x, rfl⟩ := exists_eq_map (moves.nodup_iff.mpr List.nodup_range) full
    obtain ⟨o, base⟩ := ih (inside_of_permuted moves inside)
    rw [← rank] at moves base
    exact ⟨o, .permute moves base⟩
  | @reshape f es dims new base sizes same ih =>
    have below : position idx new < volume dims := same ▸ position_lt inside
    obtain ⟨inner, within, number⟩ := exists_position_eq below
    obtain ⟨o, leads⟩ := ih within
    obtain ⟨es', shape, sizes'⟩ := base.shape_eq
    exact ⟨o, .reshape sizes (same ▸ base.small) inside shape sizes' within number.symm leads⟩
  | slice base fits lengths _ ih =>
    obtain ⟨es', _, sizes'⟩ := base.shape_eq
    obtain ⟨inner, sliced, within⟩ := Sliced.exists_inside fits sizes'.lt lengths inside
    obtain ⟨o, leads⟩ := ih within
    exact ⟨o, .slice sliced leads⟩

namespace Leads

/-- The symbolic offset has the number of the element as its value. -/
theorem apply (h : f.Leads env idx o) {xs : List IndexExpr} (values : HaveValues env xs idx) :
    ∃ x, f.apply xs = some x ∧ x.HasValue env o := by
  induction h generalizing xs with
  | rowMajor sizes small inside => exact ⟨_, rfl, sizes.flatOffset values inside small⟩
  | permute moves _ ih =>
    obtain ⟨inner, moved, innerValues⟩ := values.unpermute moves
    obtain ⟨x, found, value⟩ := ih innerValues
    exact ⟨x, by simp [IndexFn.apply, moved, found], value⟩
  | reshape sizes small inside shape sizes' inside' number _ ih =>
    have flat := sizes.flatOffset values inside small
    rw [number] at flat
    obtain ⟨inner, split, innerValues⟩ := sizes'.indexAt inside' flat
    obtain ⟨x, found, value⟩ := ih innerValues
    exact ⟨x, by simp [IndexFn.apply, shape, split, found], value⟩
  | slice sliced _ ih => exact ih (sliced.unslice values)

theorem ranked (h : f.Leads env idx o) : f.Ranked idx.length := by
  induction h with
  | rowMajor sizes _ inside => exact inside.length_eq.trans sizes.length_eq.symm
  | permute _ _ ih => simpa [Ranked] using ih
  | reshape _ _ _ shape sizes' inside' _ _ ih =>
    intro dims same
    cases shape.symm.trans same
    rwa [sizes'.length_eq, ← inside'.length_eq]
  | slice sliced _ ih => rwa [sliced.length_eq] at ih

/-- No element lies outside the layout at the bottom. -/
theorem lt (h : f.Leads env idx o) (bottom : HaveValues env f.bottomShape base) : o < volume base := by
  induction h with
  | rowMajor sizes _ inside =>
    cases sizes.unique bottom
    exact position_lt inside
  | permute _ _ ih => exact ih bottom
  | reshape _ _ _ _ _ _ _ _ ih => exact ih bottom
  | slice _ _ ih => exact ih bottom

end Leads

/-! Offsets of words -/

/-- The offset of the index has the number as its value. -/
def HasOffset (env : Name → Option Int64) (f : IndexFn) (is : List Int64) (o : Nat) : Prop :=
  ∃ w, f.offset is env = some (some w) ∧ w.toInt = o

theorem HasOffset.unique {is : List Int64} {o' : Nat} (h : f.HasOffset env is o) (h' : f.HasOffset env is o') : o = o' := by
  obtain ⟨v, left, same⟩ := h
  obtain ⟨w, right, same'⟩ := h'
  cases left.symm.trans right
  omega

theorem Leads.offset {is : List Int64} (h : f.Leads env (is.map fun i => i.toInt.toNat) o) (nonneg : ∀ i ∈ is, 0 ≤ i) :
    f.HasOffset env is o := by
  have values : HaveValues env (is.map .const) (is.map fun i => i.toInt.toNat) := by
    simp only [HaveValues, List.forall₂_map_left_iff, List.forall₂_map_right_iff, List.forall₂_same]
    intro i mem
    rw [Int.toNat_of_nonneg (Int64.le_iff_toInt_le.mp (nonneg i mem))]
    exact IndexExpr.hasValue_const i
  obtain ⟨x, found, w, value, same⟩ := h.apply values
  exact ⟨w, by simp [IndexFn.offset, found, value], same⟩

/-- Every index in bounds is led to an element of the block. -/
theorem WellFormed.leads {is : List Int64} (h : f.WellFormed env dims) (bounded : InBounds is dims) :
    ∃ o, f.Leads env (is.map fun i => i.toInt.toNat) o ∧ f.HasOffset env is o := by
  obtain ⟨idx, _, inside, rfl⟩ := bounded.exists_inside
  obtain ⟨o, leads⟩ := h.exists_leads inside
  exact ⟨o, leads, leads.offset bounded.nonneg⟩

end IndexFn

end ArrayKernels
